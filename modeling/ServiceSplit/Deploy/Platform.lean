import ServiceSplit.Deploy.Workload
import ServiceSplit.Failure

/-!
# Platforms

What builds images and runs them: a toolchain, a registry and a cluster, seen as something that
answers calls.
-/

namespace ServiceSplit

/-- The kinds of calls to a platform. -/
inductive Stage where
  | compile | containerize | push | create | status | expose
deriving DecidableEq, Repr, Inhabited

/-- The step that has failed when a call fails. -/
def Stage.step : Stage → Step
  | compile => .build
  | containerize => .container
  | push => .push
  | create | status | expose => .scheduling

/-- A call to a platform. -/
inductive Call where
  /-- Build the executable of the program in a directory. -/
  | compile (artifact dir : String)
  /-- Make an image of an executable. -/
  | containerize (artifact executable image : String)
  /-- Bring an image to its registry. -/
  | push (artifact image : String)
  /-- Start a workload. -/
  | create (spec : WorkloadSpec)
  /-- Look at a workload. -/
  | status (artifact workload : String)
  /-- Make a workload reachable under a host name. -/
  | expose (artifact workload host : String) (portNumber : Nat)
deriving DecidableEq, Repr, Inhabited

namespace Call

/-- The kind of a call. -/
def stage : Call → Stage
  | compile .. => .compile
  | containerize .. => .containerize
  | push .. => .push
  | create _ => .create
  | status .. => .status
  | expose .. => .expose

/-- The artifact that a call is about. -/
def artifact : Call → String
  | compile a _ | containerize a _ _ | push a _ | status a _ | expose a _ _ _ => a
  | create spec => spec.artifact

/-- What a call is answered with: the path of an executable, the name of a workload, its status, or
nothing. -/
abbrev Answer : Call → Type
  | compile .. | create _ => String
  | status .. => WorkloadStatus
  | containerize .. | push .. | expose .. => Unit

/-- The failure of a call. -/
def failure (c : Call) (fault : Fault) : Failure :=
  .step c.stage.step c.artifact fault

end Call

/-- Something that answers calls. -/
structure Platform (m : Type → Type) where
  /-- Answers a call. -/
  call : (c : Call) → ExceptT Failure m c.Answer
  /-- Waits for some milliseconds. -/
  pause : Nat → m Unit

end ServiceSplit
