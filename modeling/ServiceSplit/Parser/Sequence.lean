import ServiceSplit.Parser.Cursor

/-!
# Sequences

Parsers of sequences. Every round of a sequence reads a token, so the number of rounds is bounded by
the number of tokens; the first argument of each parser is such a bound.
-/

namespace ServiceSplit.Parser

variable {α : Type}

/-- Items that each have the mark `sep` in front of them. -/
def following (sep : TokenKind) (item : Parser α) : (bound : Nat) → Parser (List α)
  | 0 => fail .tooDeep
  | n + 1 => do
    if ← accept sep then
      let a ← item
      return a :: (← following sep item n)
    else
      return []

/-- One item or more, with the mark `sep` between them. -/
def separated (bound : Nat) (sep : TokenKind) (item : Parser α) : Parser (List α) := do
  let a ← item
  return a :: (← following sep item bound)

/-- Items with commas between them, up to the mark `close` or the end of the text. A comma may stand
behind the last item, and items end where no comma follows. -/
def commaList (close : TokenKind) (item : Parser α) : (bound : Nat) → Parser (List α)
  | 0 => fail .tooDeep
  | n + 1 => do
    if (← check close) || (← atEnd) then
      return []
    else
      let a ← item
      if ← accept Punct.comma then
        return a :: (← commaList close item n)
      else
        return [a]

/-- Items up to the mark `close` or the end of the text, with any semicolons between them. The item
parser is told the items before, the last one first. -/
def items (close : TokenKind) (item : List α → Parser α) :
    (bound : Nat) → (before : List α) → Parser (List α)
  | 0, _ => fail .tooDeep
  | n + 1, before => do
    if (← check close) || (← atEnd) then
      return before.reverse
    else if ← accept Punct.semi then
      items close item n before
    else
      let a ← item before
      items close item n (a :: before)

/-- Items up to the mark `close` or the end of the text, with a semicolon behind each but the
last. -/
def lines (bound : Nat) (close : TokenKind) (item : Parser α) : Parser (List α) :=
  items close (fun _ => do
    let a ← item
    unless ← check close do
      expect Punct.semi
    return a) bound []

/-- Extends a value as long as `step` gives a longer one. -/
def iterate (step : α → Parser (Option α)) : (bound : Nat) → α → Parser α
  | 0, _ => fail .tooDeep
  | n + 1, a => do
    match ← step a with
    | some b => iterate step n b
    | none => return a

end ServiceSplit.Parser
