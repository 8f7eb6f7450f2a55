import ServiceSplit.Text.Basic

/-!
# String literals

Writing a text as an interpreted string literal, and the reading of import paths, which removes the
quotes of a literal and undoes the escapes of quotes and backslashes.
-/

namespace ServiceSplit.Text

/-- The written form of one character inside an interpreted string literal. -/
def escape : Char → List Char
  | '"' => ['\\', '"']
  | '\\' => ['\\', '\\']
  | '\n' => ['\\', 'n']
  | '\t' => ['\\', 't']
  | c => [c]

/-- The interpreted string literal of a text. -/
def quoteChars (cs : List Char) : List Char :=
  '"' :: cs.flatMap escape ++ ['"']

/-- The interpreted string literal of `s`. -/
def quote (s : String) : String :=
  String.ofList (quoteChars s.toList)

/-- The text between two marks `mark`, if `cs` starts and ends with one. -/
def between (mark : Char) : List Char → Option (List Char)
  | [] => none
  | c :: cs => if c = mark ∧ cs.getLast? = some mark then some cs.dropLast else none

/-- The text of a string literal: without its quotes, and with escaped quotes and then escaped
backslashes undone. A text without quotes is only unescaped. -/
def unquote (raw : String) : String :=
  let cs := raw.toList
  let inner := ((between '"' cs).orElse fun _ => between '\x60' cs).getD cs
  String.ofList
    (replaceFrom ['\\', '\\'] ['\\'] 0 (replaceFrom ['\\', '"'] ['"'] 0 inner))

end ServiceSplit.Text
