/-!
# TOML values

The values of a TOML document. Tables remember how they came about, because that decides how a
document may add to them.
-/

namespace ServiceSplit.Toml

/-- How a table came about. -/
inductive Origin where
  /-- It was written between braces. -/
  | inline
  /-- It has a header of its own. -/
  | header
  /-- It is part of the name in the header of another table. -/
  | implied
  /-- It is part of a dotted key. -/
  | dotted
deriving DecidableEq, Repr, Inhabited

/-- A value. Of floating-point numbers and times only the kind is kept. -/
inductive Value where
  | text (s : String)
  | integer (i : Int)
  | float
  | boolean (b : Bool)
  | time
  | array (items : List Value)
  | table (origin : Origin) (entries : List (String × Value))
  /-- The tables whose headers are in double brackets. -/
  | tables (items : List (List (String × Value)))
deriving Repr, Inhabited

/-- The entries of a table. -/
abbrev Entries := List (String × Value)

/-- The entries with `key` set to a value. -/
def setEntry (key : String) (v : Value) : Entries → Entries
  | [] => [(key, v)]
  | (k, old) :: rest => if k = key then (k, v) :: rest else (k, old) :: setEntry key v rest

/-- Whether a table may be changed on the way to a table that comes about as `made`. Tables between
braces are complete, and dotted keys do not add to tables with a header. -/
def Origin.isOpenTo (made : Origin) : Origin → Bool
  | inline => false
  | header => made != dotted
  | implied | dotted => true

/-- Changes the table at a path by `f`, which is told how that table came about. Tables that are
missing on the way come about as `made`; a name of several tables stands for the last of them. -/
def updateAt (made : Origin) (f : Origin → Entries → Option Entries) :
    List String → Origin → Entries → Option Entries
  | [], origin, entries => f origin entries
  | key :: path, _, entries =>
    match entries.lookup key with
    | none => do
      let inner ← updateAt made f path made []
      return setEntry key (.table made inner) entries
    | some (.table origin inner) =>
      if origin.isOpenTo made then do
        let inner ← updateAt made f path origin inner
        return setEntry key (.table origin inner) entries
      else none
    | some (.tables items) => do
      let inner ← updateAt made f path .header (items.getLast?.getD [])
      return setEntry key (.tables (items.dropLast ++ [inner])) entries
    | some _ => none

/-- Adds an entry under a dotted key, whose tables have to come from dotted keys. -/
def insertEntry (path : List String) (key : String) (v : Value) (origin : Origin)
    (entries : Entries) : Option Entries :=
  updateAt .dotted (fun origin entries =>
    if path.isEmpty || origin == .dotted then
      if (entries.lookup key).isNone then some (entries ++ [(key, v)]) else none
    else none) path origin entries

end ServiceSplit.Toml
