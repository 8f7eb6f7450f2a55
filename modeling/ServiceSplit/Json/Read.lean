import ServiceSplit.Json.Basic
import ServiceSplit.Text.Reader

/-!
# Reading JSON
-/

namespace ServiceSplit.JsonValue

open Reader

/-- White space. -/
def space : Reader Unit := do
  let _ ← takeWhile fun c => c == ' ' || c == '\n' || c == '\t' || c == '\r'

/-- A part of a written text: a character or an escape. -/
def textPart : Reader (List Char) :=
  (do return [← satisfy fun c => ' ' ≤ c && c != '"' && c != '\\']) <|> do
    char '\\'
    (do
      char 'u'
      let digits ← exactly (satisfy (Text.isDigitOf 16)) 4
      return '\\' :: 'u' :: digits) <|> do
        return ['\\', ← satisfy fun c => (JsonText.simpleEscape? c).isSome]

/-- A written text. -/
def writtenText : Reader String := do
  char '"'
  let parts ← many textPart
  char '"'
  return String.ofList parts.flatten

/-- Decimal digits, of which there is at least one. -/
def digitRun : Reader (List Char) := do
  let first ← satisfy Char.isDigit
  return first :: (← takeWhile Char.isDigit)

/-- A sequence of characters, or nothing. -/
def perhaps (p : Reader (List Char)) : Reader (List Char) :=
  p <|> pure []

/-- A number as it is written. -/
def writtenNumber : Reader String := do
  let minus ← perhaps (char '-' *> pure ['-'])
  let whole ← (char '0' *> pure ['0']) <|> digitRun
  let fraction ← perhaps do
    char '.'
    return '.' :: (← digitRun)
  let exponent ← perhaps do
    let mark ← satisfy fun c => c == 'e' || c == 'E'
    let sign ← perhaps do return [← satisfy fun c => c == '+' || c == '-']
    return mark :: sign ++ (← digitRun)
  return String.ofList (minus ++ whole ++ fraction ++ exponent)

/-- A value without parts. -/
def scalar : Reader JsonValue :=
  (Reader.text "null" *> pure .null) <|> (Reader.text "true" *> pure (.boolean true)) <|>
    (Reader.text "false" *> pure (.boolean false)) <|> (.text <$> writtenText) <|>
    (.number <$> writtenNumber)

/-- Parts between two marks, with commas between them. -/
def between {α : Type} (start stop : Char) (part : Reader α) : Reader (List α) := do
  char start
  space
  let parts ← sepBy (part <* space) (char ',' *> space)
  char stop
  return parts

/-- Reads a value with arrays and objects up to a depth. -/
def reader : (depth : Nat) → Reader JsonValue
  | 0 => scalar
  | depth + 1 =>
    scalar <|> (.array <$> between '[' ']' (reader depth)) <|>
      (.object <$> between '\x7b' '\x7d' do
        let key ← writtenText
        space
        char ':'
        space
        return (key, ← reader depth))

/-- The value of a document. No document is deeper than it is long. -/
def read? (document : String) : Option JsonValue :=
  Reader.read? (space *> reader document.length <* space) document

end ServiceSplit.JsonValue
