import ServiceSplit.Text.Numeral
import ServiceSplit.Text.Reader
import ServiceSplit.Toml.Basic

/-!
# TOML scalars

Texts, numbers, times and truth values.
-/

namespace ServiceSplit.Toml

open Reader

/-- A blank inside a line. -/
def isBlank (c : Char) : Bool :=
  c == ' ' || c == '\t'

/-- A character that may stand in a text or a comment: no control character but the tab. -/
def isPlain (c : Char) : Bool :=
  c == '\t' || (' ' ≤ c && c != '\x7f')

/-- The mark of literal texts. -/
def apostrophe : Char :=
  '\x27'

/-- The end of a line. -/
def newline : Reader Unit :=
  char '\n' <|> text "\r\n"

/-- Blanks inside a line. -/
def blanks : Reader Unit := do
  let _ ← takeWhile isBlank

/-- A character given by `n` hexadecimal digits. -/
def codePoint (n : Nat) : Reader Char := do
  let digits ← exactly (satisfy (Text.isDigitOf 16)) n
  let value := Text.numeralValue 16 digits
  if value.isValidChar then return Char.ofNat value else failure

/-- A character after a backslash. -/
def escaped : Reader Char := do
  char '\\'
  match ← satisfy fun _ => true with
  | 'b' => return '\x08'
  | 't' => return '\t'
  | 'n' => return '\n'
  | 'f' => return '\x0c'
  | 'r' => return '\r'
  | '"' => return '"'
  | '\\' => return '\\'
  | 'u' => codePoint 4
  | 'U' => codePoint 8
  | _ => failure

/-- A text in quotes on one line. -/
def quotedText : Reader String := do
  char '"'
  let cs ← many (satisfy (fun c => isPlain c && c != '"' && c != '\\') <|> escaped)
  char '"'
  return String.ofList cs

/-- A text in apostrophes on one line. -/
def literalText : Reader String := do
  char apostrophe
  let cs ← takeWhile fun c => isPlain c && c != apostrophe
  char apostrophe
  return String.ofList cs

/-- One or two marks inside a text that ends with three of them. -/
def innerMarks (mark : Char) : Reader (List Char) := do
  let run ← takeWhile (· == mark)
  if run.length = 1 ∨ run.length = 2 then return run else failure

/-- The three marks at the end of a text, and up to two that belong to it. -/
def closingMarks (mark : Char) : Reader (List Char) := do
  let run ← takeWhile (· == mark)
  if 3 ≤ run.length ∧ run.length ≤ 5 then return run.drop 3 else failure

/-- A line end that a backslash takes away, with all blanks and line ends behind it. -/
def joinedLine : Reader (List Char) := do
  char '\\'
  blanks
  newline
  let _ ← many ((do let _ ← satisfy isBlank) <|> newline)
  return []

/-- The inside of a text on several lines, up to its end. -/
def multiLine (mark : Char) (piece : Reader (List Char)) : Reader String := do
  let _ ← option newline
  let pieces ← many (piece <|> (newline *> pure ['\n']) <|> innerMarks mark)
  return String.ofList (pieces.flatten ++ (← closingMarks mark))

/-- A text in triple quotes. -/
def quotedLines : Reader String := do
  text "\"\"\""
  multiLine '"' <|
    (do return [← satisfy fun c => isPlain c && c != '"' && c != '\\']) <|> joinedLine <|>
      (do return [← escaped])

/-- A text in triple apostrophes. -/
def literalLines : Reader String := do
  exactly (char apostrophe) 3 *>
    multiLine apostrophe (do return [← satisfy fun c => isPlain c && c != apostrophe])

/-- A text. -/
def anyText : Reader String :=
  quotedLines <|> quotedText <|> literalLines <|> literalText

/-- Digits in a base, with low lines between them. -/
def digits (base : Nat) : Reader (List Char) := do
  let digit := satisfy (Text.isDigitOf base)
  let first ← digit
  return first :: (← many (digit <|> (char '_' *> digit)))

/-- A sign; tells whether it is negative. -/
def sign : Reader Bool := do
  match ← option (satisfy fun c => c == '+' || c == '-') with
  | some c => return c == '-'
  | none => return false

/-- Decimal digits without needless zeros in front. -/
def decimalDigits : Reader (List Char) := do
  if (← peek?) == some '0' then
    char '0'
    return ['0']
  else digits 10

/-- An integer with a base in front. -/
def basedInteger (mark : String) (base : Nat) : Reader Int := do
  text mark
  return Text.numeralValue base (← digits base)

/-- A decimal integer. -/
def decimalInteger : Reader Int := do
  let negative ← sign
  let value : Int := Text.numeralValue 10 (← decimalDigits)
  return if negative then -value else value

/-- An integer of 64 bits. -/
def integer : Reader Value := do
  let i ← basedInteger "0x" 16 <|> basedInteger "0o" 8 <|> basedInteger "0b" 2 <|> decimalInteger
  if Int64.minValue.toInt ≤ i ∧ i ≤ Int64.maxValue.toInt then return .integer i else failure

/-- Whether `m * 10 ^ e` is too large for a double: at least halfway from the largest one to the
next power of two. -/
def overflows (m : Nat) (e : Int) : Bool :=
  let magnitude := (Nat.toDigits 10 m).length + e
  if m = 0 ∨ magnitude < 300 then false
  else if magnitude > 310 then true
  else m * Nat.pow 10 e.toNat ≥ (Nat.pow 2 1024 - Nat.pow 2 970) * Nat.pow 10 (-e).toNat

/-- The exponent of a floating-point number. -/
def exponent : Reader Int := do
  char 'e' <|> char 'E'
  let negative ← sign
  let value : Int := Text.numeralValue 10 (← digits 10)
  return if negative then -value else value

/-- A floating-point number in digits, which must not be too large. -/
def decimalFloat : Reader Value := do
  let negative ← sign
  let whole ← decimalDigits
  let fraction ← option (char '.' *> digits 10)
  let e ← option exponent
  if fraction.isNone && e.isNone then failure
  let m := Text.numeralValue 10 (whole ++ fraction.getD [])
  if !negative && overflows m (e.getD 0 - (fraction.getD []).length) then failure
  return .float

/-- A floating-point number. -/
def float : Reader Value :=
  decimalFloat <|> do
    let _ ← sign
    text "inf" <|> text "nan"
    return .float

/-- A number of `n` digits in a range. -/
def fixed (n least most : Nat) : Reader Nat := do
  let value := Text.numeralValue 10 (← exactly (satisfy Char.isDigit) n)
  if least ≤ value ∧ value ≤ most then return value else failure

/-- The number of days of a month. -/
def daysOf (year month : Nat) : Nat :=
  if month = 2 then
    if year % 4 = 0 ∧ (year % 100 ≠ 0 ∨ year % 400 = 0) then 29 else 28
  else if month ∈ [4, 6, 9, 11] then 30
  else 31

/-- A date. -/
def date : Reader Unit := do
  let year ← fixed 4 0 9999
  char '-'
  let month ← fixed 2 1 12
  char '-'
  let _ ← fixed 2 1 (daysOf year month)

/-- A time of day. -/
def timeOfDay : Reader Unit := do
  let _ ← fixed 2 0 23
  char ':'
  let _ ← fixed 2 0 59
  char ':'
  let _ ← fixed 2 0 60
  let _ ← option do
    char '.'
    let _ ← satisfy Char.isDigit
    takeWhile Char.isDigit

/-- The distance of a time from universal time. -/
def timeOffset : Reader Unit :=
  char 'Z' <|> char 'z' <|> do
    char '+' <|> char '-'
    let _ ← fixed 2 0 23
    char ':'
    let _ ← fixed 2 0 59

/-- A date, a time of day, or both. -/
def dateTime : Reader Value := do
  (do
    date
    let _ ← option do
      let _ ← satisfy fun c => c == 'T' || c == 't' || c == ' '
      timeOfDay
      option timeOffset) <|> timeOfDay
  return .time

/-- A truth value. -/
def boolean : Reader Value :=
  (text "true" *> pure (.boolean true)) <|> (text "false" *> pure (.boolean false))

/-- A value without parts. -/
def scalar : Reader Value :=
  (.text <$> anyText) <|> boolean <|> dateTime <|> float <|> integer

end ServiceSplit.Toml
