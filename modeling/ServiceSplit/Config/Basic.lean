import ServiceSplit.Failure
import ServiceSplit.Text.Blank

/-!
# Configurations

The settings of a run.
-/

namespace ServiceSplit

/-- Where the controller is reached inside the cluster. -/
structure ControllerConfig where
  /-- The host name. -/
  host : String := "kompile-controller"
  /-- The number of the network port. -/
  port : Nat := 8080
deriving DecidableEq, Repr, Inhabited

/-- Where images are kept. -/
structure RegistryConfig where
  /-- The location of the registry. -/
  location : String := "localhost:5000"
deriving DecidableEq, Repr, Inhabited

/-- How workloads are started and watched. -/
structure SchedulerConfig where
  /-- The namespace of the workloads. -/
  workloadNamespace : Option String := none
  /-- The pause between two looks at a workload, in milliseconds. -/
  pollIntervalMs : Nat := 1000
  /-- How often a workload is looked at. -/
  maxAttempts : Nat := 120
deriving DecidableEq, Repr, Inhabited

/-- How programs are built. -/
structure BuildConfig where
  /-- The version of the language. -/
  goVersion : String := "1.21"
deriving DecidableEq, Repr, Inhabited

/-- The settings of a run. -/
structure Config where
  /-- Where the controller is reached. -/
  controller : ControllerConfig := {}
  /-- Where images are kept. -/
  registry : RegistryConfig := {}
  /-- How workloads are started. -/
  scheduler : SchedulerConfig := {}
  /-- How programs are built. -/
  build : BuildConfig := {}
deriving DecidableEq, Repr, Inhabited

namespace Config

/-- Whether a setting has no text. -/
def isBlankText (s : String) : Bool :=
  s.toList.all Text.isBlank

/-- The first setting that cannot be used. -/
def fault? (c : Config) : Option ConfigFault :=
  if isBlankText c.controller.host then some .emptyHost
  else if c.controller.port = 0 then some .zeroPort
  else if isBlankText c.registry.location then some .emptyRegistry
  else if c.scheduler.maxAttempts = 0 then some .zeroAttempts
  else none

/-- The settings, if all of them can be used. -/
def validate (path : String) (c : Config) : Except Failure Config :=
  match c.fault? with
  | some fault => .error (.config path fault)
  | none => .ok c

/-- Where services post their answers. -/
def controllerUrl (c : Config) : String :=
  "http://" ++ c.controller.host ++ ":" ++ Text.decimal c.controller.port

end Config

end ServiceSplit
