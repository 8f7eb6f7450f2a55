import ServiceSplit.Toml.Scalar

/-!
# TOML documents

A document is a sequence of headers and entries. It is read in two steps: first its lines, then the
table they make, which exists only if no line defines again what another one has defined.
-/

namespace ServiceSplit.Toml

open Reader

/-- A header or an entry. The name of a table or value is the tables on the way to it, and its last
part. -/
inductive Line where
  | header (path : List String) (key : String)
  | arrayHeader (path : List String) (key : String)
  | entry (path : List String) (key : String) (v : Value)
deriving Repr, Inhabited

/-- Arrays, tables and keys have less depth than this. -/
def depthLimit : Nat :=
  80

/-- A comment. -/
def comment : Reader Unit := do
  char '#'
  let _ ← takeWhile isPlain

/-- What may stand between the values of an array. -/
def space : Reader Unit := do
  let _ ← many ((do let _ ← satisfy isBlank) <|> newline <|> comment)

/-- The rest of a line. -/
def lineEnd : Reader Unit := do
  blanks
  let _ ← option comment
  newline <|> atEnd

/-- A part of a key. -/
def simpleKey : Reader String :=
  quotedText <|> literalText <|> do
    let isBare (c : Char) : Bool := Text.isAsciiWord c || c == '_' || c == '-'
    let first ← satisfy isBare
    return String.ofList (first :: (← takeWhile isBare))

/-- A key: the tables on the way, and the last part. -/
def key : Reader (List String × String) := do
  let parts ← sepBy (blanks *> simpleKey <* blanks) (char '.')
  match parts.getLast? with
  | some last => if parts.length < depthLimit then return (parts.dropLast, last) else failure
  | none => failure

/-- An array of values. -/
def array (value : Reader Value) : Reader Value := do
  char '['
  let items ← sepBy (space *> value <* space) (char ',')
  unless items.isEmpty do
    let _ ← option (char ',')
  space
  char ']'
  return .array items

/-- A table between braces. -/
def inlineTable (value : Reader Value) : Reader Value := do
  char '\x7b'
  let pairs ← sepBy (do
    let (path, key) ← key
    char '='
    blanks
    let v ← value
    blanks
    return (path, key, v)) (char ',')
  blanks
  char '\x7d'
  match pairs.foldlM (fun entries (path, key, v) => insertEntry path key v .inline entries) [] with
  | some entries => return .table .inline entries
  | none => failure

/-- A value with arrays and tables up to a depth. -/
def value : (depth : Nat) → Reader Value
  | 0 => scalar
  | depth + 1 => scalar <|> array (value depth) <|> inlineTable (value depth)

/-- An entry. -/
def entry : Reader Line := do
  let (path, key) ← key
  char '='
  blanks
  let v ← value (depthLimit - 1)
  lineEnd
  return .entry path key v

/-- A header. -/
def header : Reader Line := do
  char '['
  let isArray := (← option (char '[')).isSome
  let (path, key) ← key
  char ']'
  if isArray then char ']'
  lineEnd
  return if isArray then .arrayHeader path key else .header path key

/-- The lines of a document. -/
def lines : Reader (List Line) := do
  let _ ← option (char '\ufeff')
  blanks
  let found ← many <|
    ((comment *> (newline <|> atEnd) *> pure none) <|> (newline *> pure none) <|>
      (some <$> header) <|> (some <$> entry)) <* blanks
  return found.filterMap id

/-- A document on the way: its entries, and the name of the table that entries are added to. -/
structure Draft where
  /-- The entries so far. -/
  root : Entries := []
  /-- The name of the table that entries are added to. -/
  current : List String := []

/-- Gives a table a header. Only a table that is known from other headers may be there. -/
def openTable (key : String) (entries : Entries) : Option Entries :=
  match entries.lookup key with
  | none => some (setEntry key (.table .header []) entries)
  | some (.table .implied inner) => some (setEntry key (.table .header inner) entries)
  | some _ => none

/-- Adds a table to the tables of a name. -/
def appendTable (key : String) (entries : Entries) : Option Entries :=
  match entries.lookup key with
  | none => some (setEntry key (.tables [[]]) entries)
  | some (.tables items) => some (setEntry key (.tables (items ++ [[]])) entries)
  | some _ => none

/-- Adds a line to a document. -/
def Draft.add (d : Draft) : Line → Option Draft
  | .header path key => do
    let root ← updateAt .implied (fun _ => openTable key) path .header d.root
    return ⟨root, path ++ [key]⟩
  | .arrayHeader path key => do
    let root ← updateAt .implied (fun _ => appendTable key) path .header d.root
    return ⟨root, path ++ [key]⟩
  | .entry path key v => do
    let root ← updateAt .implied (insertEntry path key v) d.current .header d.root
    return { d with root }

/-- The table that some lines make. -/
def tableOf (ls : List Line) : Option Entries := do
  return (← ls.foldlM Draft.add {}).root

/-- The entries of a document. -/
def read? (s : String) : Option Entries := do
  tableOf (← lines.read? s)

end ServiceSplit.Toml
