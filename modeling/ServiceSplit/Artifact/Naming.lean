import ServiceSplit.Text.Basic

/-!
# Names of images, workloads and variables
-/

namespace ServiceSplit

/-- The image of an artifact in a registry. Names of images are in lower case. -/
def imageName (registry artifact : String) : String :=
  let location := (registry.toList.reverse.dropWhile (· == '/')).reverse
  String.ofList location ++ "/" ++ artifact.map Char.toLower ++ ":latest"

/-- The characters in lower case, with one hyphen for each run of characters other than letters and
digits. -/
def hyphenated : List Char → List Char
  | [] => []
  | c :: cs =>
    let rest := hyphenated cs
    if Text.isAsciiWord c then c.toLower :: rest
    else if rest.head? = some '-' then rest
    else '-' :: rest

/-- The characters without hyphens at either end. -/
def trimHyphens (cs : List Char) : List Char :=
  ((cs.dropWhile (· == '-')).reverse.dropWhile (· == '-')).reverse

/-- The most characters that a label may have. -/
def maxLabelLength : Nat :=
  63

/-- A label for the workload of an artifact. -/
def workloadName (artifact : String) : String :=
  match trimHyphens (hyphenated artifact.toList) with
  | [] => "kompile"
  | cs => String.ofList (cs.take maxLabelLength)

/-- The environment variable with the address of a service. -/
def serviceVariable (service : String) : String :=
  "KOMPILE_SERVICE_" ++ service.map fun c => if Text.isAsciiWord c then c.toUpper else '_'

end ServiceSplit
