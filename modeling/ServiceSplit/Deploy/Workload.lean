import ServiceSplit.Deploy.Phase
import ServiceSplit.Json.Read

/-!
# Workloads

What a cluster is told to run, and what it tells about it.
-/

namespace ServiceSplit

/-- A workload to be started. -/
structure WorkloadSpec where
  /-- The artifact that runs. -/
  artifact : String
  /-- The label, with which the name of the workload starts. -/
  name : String
  /-- The image. -/
  image : String
  /-- The number of the network port. -/
  port : Nat
  /-- The environment. -/
  env : List (String × String)
deriving DecidableEq, Repr, Inhabited

/-- The description of a workload for a cluster. -/
def WorkloadSpec.manifest (spec : WorkloadSpec) : JsonValue :=
  let variable_ (v : String × String) : JsonValue :=
    .object [("name", .ofText v.1), ("value", .ofText v.2)]
  let container : JsonValue := .object
    [("env", .array (spec.env.map variable_)),
      ("image", .ofText spec.image),
      ("name", .ofText spec.name),
      ("ports", .array [.object [("containerPort", .ofNat spec.port)]])]
  .object
    [("apiVersion", .ofText "v1"),
      ("kind", .ofText "Pod"),
      ("metadata", .object
        [("generateName", .ofText (spec.name ++ "-")),
          ("labels", .object [("app", .ofText spec.name)])]),
      ("spec", .object [("containers", .array [container])])]

/-- How a workload is. -/
structure WorkloadStatus where
  /-- How far it has come. -/
  phase : Phase
  /-- Its address, once it has one. -/
  address : Option String
deriving DecidableEq, Repr, Inhabited

namespace WorkloadStatus

/-- An optional text. -/
def optionalText? : JsonValue → Option (Option String)
  | .null => some none
  | .text written => some <$> JsonText.decode? written
  | _ => none

/-- The entries with the keys `names`, of which none may occur twice; others do not matter. -/
def select? (names : List String) (entries : List (String × JsonValue)) :
    Option (List (String × JsonValue)) := do
  let entries ← entries.mapM fun (key, v) => do return (← JsonText.decode? key, v)
  let known := entries.filter (names.contains ·.1)
  if (known.map Prod.fst).Nodup then return known else none

/-- The phase and the address in the status part of a document: an object, or both in order. -/
def fields? : JsonValue → Option (Option String × Option String)
  | .object entries => do
    let known ← select? ["phase", "podIP"] entries
    let phase ← optionalText? ((known.lookup "phase").getD .null)
    let address ← optionalText? ((known.lookup "podIP").getD .null)
    return (phase, address)
  | .array [phase, address] => do
    return (← optionalText? phase, ← optionalText? address)
  | _ => none

/-- The status part of a document, which may be missing. -/
def statusPart? : JsonValue → Option JsonValue
  | .object entries => do
    let known ← select? ["status"] entries
    return (known.lookup "status").getD (.object [])
  | .array [] => some (.object [])
  | .array [status] => some status
  | _ => none

/-- The status that a document tells. -/
def ofDocument? (document : String) : Option WorkloadStatus := do
  let (phase, address) ← fields? (← statusPart? (← JsonValue.read? document))
  return ⟨(phase.map Phase.ofName).getD .pending, address.filter (· ≠ "")⟩

end WorkloadStatus

end ServiceSplit
