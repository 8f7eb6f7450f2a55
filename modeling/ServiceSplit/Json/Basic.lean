import ServiceSplit.Text.Basic
import ServiceSplit.Text.Numeral

/-!
# JSON values

The values of a JSON document. Texts are kept as they are written between the quotes.
-/

namespace ServiceSplit

/-- A JSON value. -/
inductive JsonValue where
  | null
  | boolean (b : Bool)
  /-- A number as it is written. -/
  | number (written : String)
  /-- A text as it is written between the quotes. -/
  | text (written : String)
  | array (items : List JsonValue)
  | object (entries : List (String × JsonValue))
deriving Repr, Inhabited

namespace JsonText

/-- The last hexadecimal digit of a number. -/
def hexDigit (n : Nat) : Char :=
  Nat.digitChar (n % 16)

/-- The written form of a character. -/
def escape : Char → List Char
  | '"' => ['\\', '"']
  | '\\' => ['\\', '\\']
  | '\x08' => ['\\', 'b']
  | '\x0c' => ['\\', 'f']
  | '\n' => ['\\', 'n']
  | '\r' => ['\\', 'r']
  | '\t' => ['\\', 't']
  | c =>
    if c < ' ' then ['\\', 'u', '0', '0', hexDigit (c.toNat / 16), hexDigit c.toNat] else [c]

/-- The written form of a text. -/
def encode (s : String) : String :=
  String.ofList (s.toList.flatMap escape)

/-- The character that stands for itself after a backslash, or that a letter stands for. -/
def simpleEscape? : Char → Option Char
  | '"' => some '"'
  | '\\' => some '\\'
  | '/' => some '/'
  | 'b' => some '\x08'
  | 'f' => some '\x0c'
  | 'n' => some '\n'
  | 'r' => some '\r'
  | 't' => some '\t'
  | _ => none

/-- The value of four hexadecimal digits. -/
def unit (a b c d : Char) : Nat :=
  Text.numeralValue 16 [a, b, c, d]

/-- The character of the two halves of a pair of units. -/
def pair? (high low : Nat) : Option Char :=
  if 0xdc00 ≤ low ∧ low < 0xe000 then
    some (Char.ofNat (0x10000 + (high - 0xd800) * 0x400 + (low - 0xdc00)))
  else none

/-- The characters of a written text. Half of a pair of units that stands alone is no character. -/
def decodeChars : List Char → Option (List Char)
  | [] => some []
  | '\\' :: 'u' :: a :: b :: c :: d :: rest =>
    let high := unit a b c d
    if 0xd800 ≤ high ∧ high < 0xdc00 then
      match rest with
      | '\\' :: 'u' :: e :: f :: g :: h :: rest => do
        let char ← pair? high (unit e f g h)
        return char :: (← decodeChars rest)
      | _ => none
    else if 0xdc00 ≤ high ∧ high < 0xe000 then none
    else (Char.ofNat high :: ·) <$> decodeChars rest
  | '\\' :: c :: rest => do
    let char ← simpleEscape? c
    return char :: (← decodeChars rest)
  | c :: rest => (c :: ·) <$> decodeChars rest

/-- The text of a written form. -/
def decode? (written : String) : Option String :=
  String.ofList <$> decodeChars written.toList

end JsonText

namespace JsonValue

/-- The value of a text. -/
def ofText (s : String) : JsonValue :=
  text (JsonText.encode s)

/-- The value of a number. -/
def ofNat (n : Nat) : JsonValue :=
  number (Text.decimal n)

/-- A written text in its quotes. -/
def quoted (written : String) : String :=
  "\"" ++ written ++ "\""

mutual

/-- The document of a value. -/
def render : JsonValue → String
  | null => "null"
  | boolean b => if b then "true" else "false"
  | number written => written
  | text written => quoted written
  | array items => "[" ++ Text.joined "," (renderItems items) ++ "]"
  | object entries => "\x7b" ++ Text.joined "," (renderEntries entries) ++ "\x7d"

/-- The documents of some values. -/
def renderItems : List JsonValue → List String
  | [] => []
  | v :: vs => render v :: renderItems vs

/-- The documents of some entries. -/
def renderEntries : List (String × JsonValue) → List String
  | [] => []
  | (key, v) :: rest => (quoted key ++ ":" ++ render v) :: renderEntries rest

end

end JsonValue

end ServiceSplit
