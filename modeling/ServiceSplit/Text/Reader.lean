import ServiceSplit.Text.Basic

/-!
# Readers

Reading small formats from the front of a text. A reader takes characters or fails; alternatives are
tried in order from the same place.
-/

namespace ServiceSplit

/-- A step that reads a value from the front of a text, or fails. -/
abbrev Reader := StateT (List Char) Option

namespace Reader

variable {α β : Type}

/-- The next character. -/
def peek? : Reader (Option Char) := do
  return (← get).head?

/-- Reads a character of a class. -/
def satisfy (p : Char → Bool) : Reader Char := do
  match ← get with
  | c :: cs => if p c then set cs; return c else failure
  | [] => failure

/-- Reads a given character. -/
def char (c : Char) : Reader Unit := do
  let _ ← satisfy (· == c)

/-- Reads a given text. -/
def text (s : String) : Reader Unit := do
  match Text.stripStart s.toList (← get) with
  | some cs => set cs
  | none => failure

/-- Reads characters of a class as long as there are any. -/
def takeWhile (p : Char → Bool) : Reader (List Char) := do
  let cs ← get
  set (cs.dropWhile p)
  return cs.takeWhile p

/-- Reads a value if there is one. -/
def option (p : Reader α) : Reader (Option α) :=
  (some <$> p) <|> pure none

/-- Reads the end of the text. -/
def atEnd : Reader Unit := do
  if (← get).isEmpty then return else failure

/-- Reads as many values as there are, up to a number. -/
def upTo (p : Reader α) : (bound : Nat) → Reader (List α)
  | 0 => pure []
  | bound + 1 =>
    (do
      let a ← p
      return a :: (← upTo p bound)) <|> pure []

/-- Reads as many values as there are. Each has at least one character. -/
def many (p : Reader α) : Reader (List α) := do
  upTo p (← get).length

/-- Reads values with something between them. -/
def sepBy (p : Reader α) (sep : Reader β) : Reader (List α) :=
  (do
    let a ← p
    return a :: (← many (sep *> p))) <|> pure []

/-- Reads `n` values. -/
def exactly (p : Reader α) : (n : Nat) → Reader (List α)
  | 0 => pure []
  | n + 1 => do
    let a ← p
    return a :: (← exactly p n)

/-- Reads a whole text. -/
def read? (p : Reader α) (s : String) : Option α :=
  (StateT.run (p <* atEnd) s.toList).map Prod.fst

end Reader

end ServiceSplit
