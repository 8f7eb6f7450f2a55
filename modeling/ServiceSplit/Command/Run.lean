import ServiceSplit.Command.Arguments
import ServiceSplit.Config.Read
import ServiceSplit.Deploy.Orchestration
import ServiceSplit.Deploy.Tools
import ServiceSplit.Diagnostic

/-!
# Runs of the command line

A run reads the configuration and the program, splits the program, writes the artifacts, and brings
them up unless it is told not to. Nothing is written before all of the program is known to be right.
-/

namespace ServiceSplit

/-- How a run ends. -/
inductive Outcome where
  /-- Something is shown instead of a run. -/
  | shown (text : String)
  /-- The arguments are wrong. -/
  | misused (error : UsageError)
  /-- All went well; these artifacts were brought up. -/
  | finished (addresses : Addresses)
  /-- Something went wrong, before or after the program was loaded. -/
  | failed (failure : Failure) (programLoaded : Bool)
deriving DecidableEq, Repr, Inhabited

namespace Outcome

/-- The exit code. -/
def exitCode : Outcome → Nat
  | shown _ | finished _ => 0
  | failed .. => 1
  | misused _ => 2

/-- What is written as the result. -/
def stdout : Outcome → String
  | shown text => text
  | finished addresses => Text.lines (addresses.map fun (a, address) => a ++ "\t" ++ address)
  | misused _ | failed .. => ""

/-- The report on what went wrong. -/
def report? : Outcome → Option Report
  | failed failure programLoaded => some (failure.report programLoaded)
  | _ => none

end Outcome

/-- The usual path of the configuration. -/
def defaultConfigPath : String :=
  "kompile.toml"

namespace Host

variable {m : Type → Type} [Monad m]

/-- A result that needs no access to the host. -/
def settled {α : Type} (result : Except Failure α) : ExceptT Failure m α :=
  ExceptT.mk (pure result)

/-- Reads the configuration at a path. -/
def readConfig (host : Host m) (path : String) : ExceptT Failure m Config := do
  let text ← accessing path (host.readFile path)
  settled (Config.ofText path text)

/-- Reads the configuration that the settings name, or else the usual one if there is one. -/
def findConfig (host : Host m) (path? : Option String) : ExceptT Failure m Config := do
  match path? with
  | some path => host.readConfig path
  | none =>
    if ← host.isFile defaultConfigPath then host.readConfig defaultConfigPath
    else return {}

/-- Reads the configuration and the program. -/
def prepare (host : Host m) (o : Options) : ExceptT Failure m (Config × Program) := do
  let config ← host.findConfig o.config
  let config := match o.registry with
    | some location => { config with registry := { location } }
    | none => config
  let source ← accessing o.filename (host.readFile o.filename)
  let program ← settled (Program.load o.filename source)
  return (config, program)

/-- Splits a program, writes the artifacts, and brings them up unless the settings say no. -/
def produce (host : Host m) (o : Options) (config : Config) (program : Program) :
    ExceptT Failure m Addresses := do
  let compilation ← settled (program.compile config)
  let dirs ← host.writeArtifacts o.output (compilation.artifacts config)
  if o.noDeploy then return []
  let deployment : Deployment m :=
    ⟨host.platform config.scheduler.workloadNamespace, config, config.retryPolicy⟩
  deployment.run dirs compilation.controller.services

/-- The run for given settings. -/
def compileAndDeploy (host : Host m) (o : Options) : m Outcome := do
  match ← (host.prepare o).run with
  | .error failure => return .failed failure false
  | .ok (config, program) =>
    match ← (host.produce o config program).run with
    | .error failure => return .failed failure true
    | .ok addresses => return .finished addresses

/-- The run for given arguments. -/
def command (host : Host m) (args : List String) : m Outcome :=
  match Options.ofArgs args with
  | .ok o => host.compileAndDeploy o
  | .error .help => return .shown helpText
  | .error .version => return .shown versionText
  | .error (.misuse e) => return .misused e

end Host

end ServiceSplit
