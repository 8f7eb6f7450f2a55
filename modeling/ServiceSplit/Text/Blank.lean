import ServiceSplit.Text.Letter

/-!
# White space

The characters with the Unicode property White_Space, and the removal of white space at the ends of
a text.
-/

namespace ServiceSplit.Text

/-- The ranges of code points whose characters are white space. -/
def blankRanges : List (Nat × Nat) :=
  [(9, 13), (32, 32), (133, 133), (160, 160), (5760, 5760), (8192, 8202), (8232, 8233),
   (8239, 8239), (8287, 8287), (12288, 12288)]

/-- A character with the property White_Space. -/
def isBlank (c : Char) : Bool :=
  inRanges blankRanges c.toNat

/-- `cs` without the white space at its end. -/
def trimEnd (cs : List Char) : List Char :=
  (cs.reverse.dropWhile isBlank).reverse

/-- `cs` without the white space at both ends. -/
def trim (cs : List Char) : List Char :=
  trimEnd (cs.dropWhile isBlank)

/-- `s` without the white space at both ends. -/
def trimmed (s : String) : String :=
  String.ofList (trim s.toList)

end ServiceSplit.Text
