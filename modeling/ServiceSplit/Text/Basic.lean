import ServiceSplit.Text.Blank

/-!
# Texts as lists of characters

Positions in a source text are counted in bytes of its UTF-8 form. This file measures lists of
characters in bytes, cuts them at byte positions, and holds the few operations on texts that the
other modules share.
-/

namespace ServiceSplit.Text

/-- The length of a text in bytes. -/
def byteSize (cs : List Char) : Nat :=
  cs.foldl (fun n c => n + c.utf8Size) 0

/-- The number of characters in the first `n` bytes of a text, added to `count`. A character that
straddles the end is counted. -/
def charCount : (n : Nat) → List Char → (count : Nat) → Nat
  | 0, _, count => count
  | _, [], count => count
  | n, c :: cs, count => charCount (n - c.utf8Size) cs (count + 1)

/-- The text behind the first `n` bytes. -/
def dropBytes (n : Nat) (cs : List Char) : List Char :=
  cs.drop (charCount n cs 0)

/-- The first `n` bytes of a text. -/
def takeBytes (n : Nat) (cs : List Char) : List Char :=
  cs.take (charCount n cs 0)

/-- The text between the byte positions `start` and `stop`. -/
def slice (cs : List Char) (start stop : Nat) : List Char :=
  takeBytes (stop - start) (dropBytes start cs)

/-- The text behind `front`, if `cs` starts with `front`. -/
def stripStart : (front cs : List Char) → Option (List Char)
  | [], cs => some cs
  | _ :: _, [] => none
  | p :: ps, c :: cs => if p = c then stripStart ps cs else none

/-- `cs` with every occurrence of the nonempty text `old` replaced by `new`, from left to right;
`skip` characters of an occurrence are still to be passed over. -/
def replaceFrom (old new : List Char) : (skip : Nat) → List Char → List Char
  | _, [] => []
  | skip + 1, _ :: cs => replaceFrom old new skip cs
  | 0, c :: cs =>
    if old.isPrefixOf (c :: cs) then new ++ replaceFrom old new (old.length - 1) cs
    else c :: replaceFrom old new 0 cs

/-- `s` with every occurrence of the nonempty text `old` replaced by `new`, from left to right. -/
def replaceAll (s old new : String) : String :=
  String.ofList (replaceFrom old.toList new.toList 0 s.toList)

/-- The pieces of `cs` between the occurrences of `sep`. There is always at least one piece. -/
def splitOn (sep : Char) : List Char → List (List Char)
  | [] => [[]]
  | c :: cs =>
    match splitOn sep cs with
    | [] => [[]]
    | p :: ps => if c = sep then [] :: p :: ps else (c :: p) :: ps

/-- Whether `s` starts with `front`. -/
def startsWith (s front : String) : Bool :=
  front.toList.isPrefixOf s.toList

/-- The text of some lines, each with its line end. -/
def lines (ls : List String) : String :=
  String.join (ls.map (· ++ "\n"))

/-- Texts with `sep` between them. -/
def joined (sep : String) (parts : List String) : String :=
  String.join (parts.intersperse sep)

/-- An ASCII letter or digit. -/
def isAsciiWord (c : Char) : Bool :=
  c.isAlphanum

/-- The decimal digits of `n`. -/
def decimal (n : Nat) : String :=
  toString n

end ServiceSplit.Text
