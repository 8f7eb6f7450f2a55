import ServiceSplit.Deploy.Platform
import ServiceSplit.Host.Basic
import ServiceSplit.Text.Blank

/-!
# The platform of command-line tools

Images are built with `go` and `docker`, and run with `kubectl`.
-/

namespace ServiceSplit.Host

variable {m : Type → Type} [Monad m]

/-- Runs a tool, which has to end well. -/
def runTool (host : Host m) (c : Call) (i : Invocation) : ExceptT Failure m Output := do
  match ← host.run i with
  | .error e => throw (c.failure (.cannotStart i.program e))
  | .ok out =>
    if out.status = 0 then return out
    else throw (c.failure (.exited i.program out.status (Text.trimmed out.stderr)))

/-- A start of the tool for clusters. -/
def clusterTool (namespace_ : Option String) (args : List String) : Invocation where
  program := "kubectl"
  args := (match namespace_ with
    | some name => ["--namespace", name]
    | none => []) ++ args

/-- Builds the executable of the program in a directory, and gives its path. -/
def compileTool (host : Host m) (artifact dir : String) : ExceptT Failure m String := do
  let c : Call := .compile artifact dir
  let _ ← host.runTool c ⟨"go", ["mod", "tidy"], some dir, [], none⟩
  let _ ← host.runTool c
    ⟨"go", ["build", "-ldflags", "-s -w", "-trimpath", "-o", "main", "."], some dir,
      [("CGO_ENABLED", "0")], none⟩
  return joinPath dir "main"

/-- Starts a workload, and gives its name. -/
def createTool (host : Host m) (namespace_ : Option String) (spec : WorkloadSpec) :
    ExceptT Failure m String := do
  let c : Call := .create spec
  let args := ["create", "-f", "-", "-o", "jsonpath=\x7b.metadata.name\x7d"]
  let out ← host.runTool c
    { clusterTool namespace_ args with input := some spec.manifest.render }
  match Text.trimmed out.stdout with
  | "" => throw (c.failure .noWorkloadName)
  | name => return name

/-- Looks at a workload. -/
def statusTool (host : Host m) (namespace_ : Option String) (artifact workload : String) :
    ExceptT Failure m WorkloadStatus := do
  let c : Call := .status artifact workload
  let out ← host.runTool c (clusterTool namespace_ ["get", "pod", workload, "-o", "json"])
  match WorkloadStatus.ofDocument? out.stdout with
  | some status => return status
  | none => throw (c.failure .unreadableStatus)

/-- The platform of command-line tools. -/
def platform (host : Host m) (namespace_ : Option String) : Platform m where
  call
    | .compile artifact dir => host.compileTool artifact dir
    | c@(.containerize _ executable image) => do
      let _ ← host.runTool c
        ⟨"docker", ["build", "-t", image, "."], some (parentPath executable), [], none⟩
    | c@(.push _ image) => do
      let _ ← host.runTool c ⟨"docker", ["push", image], none, [], none⟩
    | .create spec => host.createTool namespace_ spec
    | .status artifact workload => host.statusTool namespace_ artifact workload
    | c@(.expose _ workload name portNumber) => do
      let portText := Text.decimal portNumber
      let _ ← host.runTool c <| clusterTool namespace_
        ["expose", "pod", workload, "--name", name, "--port", portText, "--target-port", portText]
  pause := host.pause

end ServiceSplit.Host
