/-!
# Phases of a workload
-/

namespace ServiceSplit

/-- How far a workload has come. -/
inductive Phase where
  | pending | running | succeeded | failed | unknown
deriving DecidableEq, Repr, Inhabited

namespace Phase

/-- The phase with a given name; other names are an unknown phase. -/
def ofName : String → Phase
  | "Pending" => pending
  | "Running" => running
  | "Succeeded" => succeeded
  | "Failed" => failed
  | _ => unknown

/-- The name of a phase. -/
def name : Phase → String
  | pending => "Pending"
  | running => "Running"
  | succeeded => "Succeeded"
  | failed => "Failed"
  | unknown => "Unknown"

/-- Reading the name of a phase gives the phase. -/
@[simp]
theorem ofName_name (p : Phase) : ofName p.name = p := by
  cases p <;> rfl

end Phase

end ServiceSplit
