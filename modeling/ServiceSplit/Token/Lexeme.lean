import ServiceSplit.Text.Digit
import ServiceSplit.SyntaxError
import ServiceSplit.Token.Number

/-!
# Lexemes

A source text is cut from left to right into lexemes: newlines, other white space, comments, tokens,
and texts that are none of these. The texts of the lexemes, put together, are the source text.
-/

namespace ServiceSplit

/-- A piece of a source text. -/
inductive Lexeme where
  /-- A newline. -/
  | newline
  /-- A white space character other than a newline. -/
  | blank (c : Char)
  /-- A comment with its delimiters. -/
  | comment (text : List Char)
  /-- A token. -/
  | token (kind : TokenKind)
  /-- A text that no program contains. -/
  | fault (cause : SyntaxCause) (text : List Char)
deriving Repr

namespace Lexeme

/-- The text of a lexeme. -/
def text : Lexeme → List Char
  | newline => ['\n']
  | blank c => [c]
  | comment text => text
  | token kind => kind.text.toList
  | fault _ text => text

/-- The rest of a block comment up to its end, in front of it the characters `seen` that were read
already, in reverse order, and the text behind the comment. -/
def closeComment (seen : List Char) : List Char → Option (List Char × List Char)
  | [] => none
  | c :: cs =>
    if c = '*' ∧ cs.head? = some '/' then some ((('/' :: c :: seen).reverse), cs.tail)
    else closeComment (c :: seen) cs

/-- The rest of a quoted literal up to its closing quote or, if the flag is false, up to the newline
or end of text that cuts it off; `seen` holds the characters read already, in reverse order. A
backslash hides the character behind it. -/
def closeQuote (mark : Char) (seen : List Char) : List Char → Bool × List Char × List Char
  | [] => (false, seen.reverse, [])
  | ['\\'] => (false, ('\\' :: seen).reverse, [])
  | '\\' :: d :: cs => closeQuote mark (d :: '\\' :: seen) cs
  | c :: cs =>
    if c = '\n' then (false, seen.reverse, c :: cs)
    else if c = mark then (true, (c :: seen).reverse, cs)
    else closeQuote mark (c :: seen) cs

/-- A quoted literal that starts with `mark`, which is still in front of `cs`. -/
def quoted (mark : Char) (kind : LitKind) (cause : SyntaxCause) (cs : List Char) :
    Lexeme × List Char :=
  match closeQuote mark [mark] cs with
  | (true, text, rest) => (token (.literal kind (String.ofList text)), rest)
  | (false, text, rest) => (fault cause text, rest)

/-- A raw string literal, whose opening mark is still in front of `cs`. -/
def rawString (cs : List Char) : Lexeme × List Char :=
  let mark := '\x60'
  match cs.span (· != mark) with
  | (text, _ :: rest) =>
    (token (.literal .string (String.ofList (mark :: text ++ [mark]))), rest)
  | (text, []) => (fault .unterminatedRawString (mark :: text), [])

/-- A number literal. Letters and digits that follow it directly spoil it. -/
def number (cs : List Char) : Lexeme × List Char :=
  let size := (Recognizer.number cs).getD 1
  let literal := cs.take size
  let (extra, rest) := (cs.drop size).span Text.isWordChar
  if extra.isEmpty then
    (token (.literal (.ofNumber literal) (String.ofList literal)), rest)
  else
    let text := literal ++ extra
    (fault (.invalidDigit (String.ofList text)) text, rest)

/-- The longest operator or delimiter at the start of `c :: cs`. -/
def mark (c : Char) (cs : List Char) : Lexeme × List Char :=
  match Punct.longestFirst.find? fun p => p.text.toList.isPrefixOf (c :: cs) with
  | some p => (token (.punct p), cs.drop (p.text.length - 1))
  | none => (fault (.unexpectedChar c) [c], cs)

/-- The first lexeme of `c :: cs`, and the text behind it. -/
def next (c : Char) (cs : List Char) : Lexeme × List Char :=
  if c = '\n' then (newline, cs)
  else if c = '/' ∧ cs.head? = some '/' then
    let (text, rest) := cs.span (· != '\n')
    (comment (c :: text), rest)
  else if c = '/' ∧ cs.head? = some '*' then
    match closeComment ['*', '/'] cs.tail with
    | some (text, rest) => (comment text, rest)
    | none => (fault .unterminatedComment (c :: cs), [])
  else if Text.isBlank c then (blank c, cs)
  else if Text.isWordStart c then
    let (word, rest) := cs.span Text.isWordChar
    (token (.ofWord (String.ofList (c :: word))), rest)
  else if c.isDigit || (c == '.' && cs.head?.any Char.isDigit) then number (c :: cs)
  else if c = '"' then quoted c .string .unterminatedString cs
  else if c = '\x27' then quoted c .char .unterminatedRune cs
  else if c = '\x60' then rawString cs
  else mark c cs

end Lexeme

/-- The lexemes of a text behind those in `seen`, which are in reverse order. No lexeme is empty, so
the length of the text bounds their number. -/
def lexemesFrom (seen : List Lexeme) : (fuel : Nat) → List Char → List Lexeme
  | 0, _ => seen.reverse
  | _, [] => seen.reverse
  | fuel + 1, c :: cs =>
    let (lexeme, rest) := Lexeme.next c cs
    lexemesFrom (lexeme :: seen) fuel rest

/-- The lexemes of a text. -/
def lexemes (cs : List Char) : List Lexeme :=
  lexemesFrom [] cs.length cs

end ServiceSplit
