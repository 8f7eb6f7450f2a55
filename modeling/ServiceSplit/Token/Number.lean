import ServiceSplit.Token.Basic

/-!
# Number literals

The spelling of integers, floating-point numbers and imaginary numbers. A recognizer says how many
characters at the start of a text belong to it; the spellings are put together from recognizers in
sequence, as options and as alternatives, the first alternative that fits being taken.
-/

namespace ServiceSplit

/-- How many characters at the start of a text are recognized, if any. -/
abbrev Recognizer := List Char → Option Nat

namespace Recognizer

/-- One character of a class. -/
def one (p : Char → Bool) : Recognizer
  | [] => none
  | c :: _ => if p c then some 1 else none

/-- A run of at least one character of a class. -/
def run (p : Char → Bool) : Recognizer := fun cs =>
  match (cs.takeWhile p).length with
  | 0 => none
  | n + 1 => some (n + 1)

/-- `r`, or nothing. -/
def optional (r : Recognizer) : Recognizer := fun cs =>
  some ((r cs).getD 0)

/-- `r` and behind it `s`. -/
def seq (r s : Recognizer) : Recognizer := fun cs => do
  let m ← r cs
  let n ← s (cs.drop m)
  return m + n

/-- `r`, or else `s`. -/
def alt (r s : Recognizer) : Recognizer := fun cs =>
  (r cs).orElse fun _ => s cs

/-- A decimal digit or a separating low line. -/
def isDigitOrSeparator (c : Char) : Bool :=
  c.isDigit || c == '_'

/-- A hexadecimal digit or a separating low line. -/
def isHexOrSeparator (c : Char) : Bool :=
  c.isDigit || ('a' ≤ c && c ≤ 'f') || ('A' ≤ c && c ≤ 'F') || c == '_'

/-- Decimal digits with separators. -/
def digits : Recognizer := run isDigitOrSeparator

/-- Hexadecimal digits with separators. -/
def hexDigits : Recognizer := run isHexOrSeparator

/-- The sign of an exponent, or nothing. -/
def sign : Recognizer := optional (one fun c => c == '+' || c == '-')

/-- An exponent marked by `mark` in either case. -/
def exponent (mark : Char → Bool) : Recognizer :=
  seq (one mark) (seq sign digits)

/-- A zero followed by the letter of a base in either case. -/
def base (letter : Char → Bool) : Recognizer :=
  seq (one (· == '0')) (one letter)

/-- A point. -/
def point : Recognizer := one (· == '.')

/-- A hexadecimal number; a mantissa with a point may lack digits on both sides. -/
def hexNumber : Recognizer :=
  seq (base fun c => c == 'x' || c == 'X')
    (seq (alt (seq (optional hexDigits) (seq point (optional hexDigits))) hexDigits)
      (optional (exponent fun c => c == 'p' || c == 'P')))

/-- A binary number. -/
def binaryNumber : Recognizer :=
  seq (base fun c => c == 'b' || c == 'B') (run fun c => c == '0' || c == '1' || c == '_')

/-- An octal number. -/
def octalNumber : Recognizer :=
  seq (base fun c => c == 'o' || c == 'O') (run fun c => ('0' ≤ c && c ≤ '7') || c == '_')

/-- A decimal exponent, or nothing. -/
def decimalExponent : Recognizer := optional (exponent fun c => c == 'e' || c == 'E')

/-- A decimal number, with or without a point and an exponent. -/
def decimalNumber : Recognizer :=
  alt (seq digits (seq (optional (seq point (optional digits))) decimalExponent))
    (seq point (seq digits decimalExponent))

/-- A number literal. -/
def number : Recognizer :=
  seq (alt hexNumber (alt binaryNumber (alt octalNumber decimalNumber)))
    (optional (one (· == 'i')))

end Recognizer

/-- The kind of a number literal: imaginary if it ends in `i`, and a float if it has a point or the
exponent of its base. -/
def LitKind.ofNumber (literal : List Char) : LitKind :=
  let lower := literal.map Char.toLower
  if literal.getLast? == some 'i' then .imag
  else match lower with
    | '0' :: 'x' :: _ => if lower.contains '.' || lower.contains 'p' then .float else .int
    | '0' :: 'b' :: _ => .int
    | '0' :: 'o' :: _ => .int
    | _ => if lower.contains '.' || lower.contains 'e' then .float else .int

end ServiceSplit
