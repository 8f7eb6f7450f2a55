import ServiceSplit.Deploy.Platform

/-!
# Scripted platforms

A platform whose answers are written beforehand. It keeps the calls it has got.
-/

namespace ServiceSplit

/-- The answers of a scripted platform. -/
structure Script where
  /-- The call that fails. -/
  failing : Option (Stage × String) := none
  /-- What is seen at each look at the workload of an artifact. -/
  statuses : List (String × List WorkloadStatus) := []
deriving DecidableEq, Repr, Inhabited

namespace Script

/-- Whether a call fails. -/
def fails (s : Script) (c : Call) : Bool :=
  s.failing == some (c.stage, c.artifact)

/-- What is seen at a look at the workload of an artifact after some calls, of which the look is the
last one. The last status that is written stays; without any, the workload runs. -/
def statusAfter (s : Script) (calls : List Call) (artifact : String) : WorkloadStatus :=
  let looks := calls.countP fun c => c.stage == .status && c.artifact == artifact
  let created := calls.countP (·.stage == .create)
  let written := (s.statuses.lookup artifact).getD []
  (written[looks - 1]?.or written.getLast?).getD
    ⟨.running, some ("10.0.0." ++ Text.decimal created)⟩

/-- The answer to a call after some calls, of which it is the last one. -/
def answer (s : Script) (calls : List Call) : (c : Call) → c.Answer
  | .compile _ dir => dir ++ "/main"
  | .create spec => spec.name ++ "-x"
  | .status artifact _ => s.statusAfter calls artifact
  | .containerize .. | .push .. | .expose .. => ()

/-- The platform. -/
def platform (s : Script) : Platform (StateM (List Call)) where
  call c := do
    modify (· ++ [c])
    if s.fails c then throw (c.failure (.told "scripted"))
    return s.answer (← get) c
  pause _ := return

end Script

end ServiceSplit
