import ServiceSplit.Artifact.Write
import ServiceSplit.Deploy.Platform
import ServiceSplit.Deploy.Retry

/-!
# Orchestration

Bringing artifacts to a platform: the services one after the other, and then the controller, which
is told their addresses.
-/

namespace ServiceSplit

/-- Where artifacts are reached, in the order of their names. -/
abbrev Addresses := List (String × String)

/-- The addresses with that of an artifact. -/
def Addresses.insert (artifact address : String) : Addresses → Addresses
  | [] => [(artifact, address)]
  | (a, old) :: rest =>
    if artifact < a then (artifact, address) :: (a, old) :: rest
    else if artifact = a then (a, address) :: rest
    else (a, old) :: insert artifact address rest

/-- What a deployment needs to know. -/
structure Deployment (m : Type → Type) where
  /-- The platform. -/
  platform : Platform m
  /-- The settings. -/
  config : Config
  /-- How often workloads are looked at. -/
  policy : RetryPolicy

/-- How often workloads are looked at by the settings. -/
def Config.retryPolicy (config : Config) : RetryPolicy :=
  ⟨config.scheduler.maxAttempts, config.scheduler.pollIntervalMs⟩

namespace Deployment

variable {m : Type → Type} [Monad m]

/-- Looks at a workload once. It gives an address when it runs, and fails when it has ended. -/
def look (d : Deployment m) (artifact workload : String) : ExceptT Failure m (Option String) := do
  let status ← d.platform.call (.status artifact workload)
  match status.phase, status.address with
  | .running, some address => return some address
  | .failed, _ | .succeeded, _ =>
    throw (.step .scheduling artifact (.stopped workload status.phase))
  | _, _ => return none

/-- Waits until a workload runs, and gives its address. -/
def awaitRunning (d : Deployment m) (artifact workload : String) : ExceptT Failure m String := do
  match ← d.policy.poll d.platform.pause fun _ => d.look artifact workload with
  | some address => return address
  | none => throw (.step .scheduling artifact (.notRunning workload d.policy.maxAttempts))

/-- Brings up one artifact. Gives the name of its workload and where it is reached. -/
def deploy (d : Deployment m) (a : ArtifactDir) (portNumber : Nat) (env : Variables) :
    ExceptT Failure m (String × String) := do
  let image := imageName d.config.registry.location a.name
  let executable ← d.platform.call (.compile a.name a.dir)
  d.platform.call (.containerize a.name executable image)
  d.platform.call (.push a.name image)
  let workload ← d.platform.call (.create ⟨a.name, workloadName a.name, image, portNumber, env⟩)
  let address ← d.awaitRunning a.name workload
  return (workload, "http://" ++ address ++ ":" ++ Text.decimal portNumber)

/-- Brings up services one after the other. -/
def services (d : Deployment m) : List ArtifactDir → Addresses → ExceptT Failure m Addresses
  | [], known => return known
  | a :: rest, known => do
    let (_, address) ← d.deploy a servicePort []
    d.services rest (known.insert a.name address)

/-- Brings up the controller, which has to know the address of each service it dispatches to. -/
def controller (d : Deployment m) (a : ArtifactDir) (dispatched : List String)
    (known : Addresses) : ExceptT Failure m Addresses := do
  match dispatched.find? fun service => (known.lookup service).isNone with
  | some missing => throw (.step .scheduling controllerName (.noAddress missing))
  | none =>
    let env := d.config.controllerVariables dispatched fun service =>
      (known.lookup service).getD ""
    let portNumber := d.config.controller.port
    let (workload, address) ← d.deploy a portNumber env
    d.platform.call (.expose controllerName workload d.config.controller.host portNumber)
    return known.insert controllerName address

/-- Brings up all artifacts: the services in order, and then the controller if it is among them. -/
def run (d : Deployment m) (artifacts : List ArtifactDir) (dispatched : List String) :
    ExceptT Failure m Addresses := do
  let known ← d.services (artifacts.filter (·.name != controllerName)) []
  match artifacts.find? (·.name == controllerName) with
  | none => return known
  | some a => d.controller a dispatched known

end Deployment

end ServiceSplit
