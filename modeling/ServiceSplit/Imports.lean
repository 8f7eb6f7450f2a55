import ServiceSplit.Tree.Events

/-!
# Imports that a file needs

The imports of a file are brought in line with the packages it refers to.
-/

namespace ServiceSplit

/-- Inserts a text into a sorted list without repetitions. -/
def insertSorted (s : String) : List String → List String
  | [] => [s]
  | t :: ts => if s < t then s :: t :: ts else if s = t then t :: ts else t :: insertSorted s ts

/-- The packages that a file refers to, each once, in order. -/
def File.qualifiers (file : File) : List String :=
  ((file.events {}).filterMap Event.qualifier?).foldl (fun found q => insertSorted q found) []

/-- Whether an import is needed in a file that refers to the packages `used`. Blank and dot imports
always are. -/
def ImportSpec.isUsed (used : List String) (spec : ImportSpec) : Bool :=
  let name := spec.localName
  name == "_" || name == "." || used.contains name

/-- The imports with `path` added, unless it is imported without alias. -/
def requireImport (imports : List ImportSpec) (path : String) : List ImportSpec :=
  if imports.any fun i => i.path == path && i.alias?.isNone then imports
  else imports ++ [.made path]

/-- The imports without those that follow another one of the same path and alias. -/
def dropRepeated : List ImportSpec → List ImportSpec
  | [] => []
  | a :: rest =>
    match dropRepeated rest with
    | [] => [a]
    | b :: more =>
      if a.path == b.path && a.alias? == b.alias? then a :: more else a :: b :: more

/-- The file with the imports it needs, sorted by path. The paths of `required` are imported if the
file refers to them. -/
def File.reconcileImports (file : File) (required : List String) : File :=
  let candidates := required.foldl requireImport file.imports
  let used := file.qualifiers
  let kept := candidates.filter (ImportSpec.isUsed used)
  { file with imports := dropRepeated (kept.mergeSort fun a b => a.path ≤ b.path) }

end ServiceSplit
