import ServiceSplit.Text.Quoted

/-!
# String literals

Reading an interpreted string literal undoes the escapes of its text and stops at the closing quote.
A text is found again from its literal in this way, whatever stands behind the literal, so that
different texts have different literals and none of them starts with another one.
-/

namespace ServiceSplit.Text

/-- The character that is written as a backslash in front of `d`. -/
def escapedBy : (d : Char) → Option Char
  | '"' => some '"'
  | '\\' => some '\\'
  | 'n' => some '\n'
  | 't' => some '\t'
  | _ => none

/-- The text of an interpreted string literal whose opening quote has been read, and what stands
behind the literal. There are escapes of quotes, backslashes, newlines and tabs only, and no literal
goes on behind the end of its line. -/
def readLiteral : List Char → Option (List Char × List Char)
  | [] => none
  | '"' :: rest => some ([], rest)
  | '\\' :: d :: rest => do
    let c ← escapedBy d
    let (cs, rest) ← readLiteral rest
    return (c :: cs, rest)
  | c :: rest => do
    if c = '\\' ∨ c = '\n' then none
    let (cs, rest) ← readLiteral rest
    return (c :: cs, rest)

/-- A character is written as it is, unless it means something else in a literal, and otherwise
behind a backslash. -/
theorem escape_cases (c : Char) :
    (escape c = [c] ∧ c ≠ '"' ∧ c ≠ '\\' ∧ c ≠ '\n') ∨
      ∃ d, escape c = ['\\', d] ∧ escapedBy d = some c := by
  unfold escape
  split
  · exact Or.inr ⟨'"', rfl, rfl⟩
  · exact Or.inr ⟨'\\', rfl, rfl⟩
  · exact Or.inr ⟨'n', rfl, rfl⟩
  · exact Or.inr ⟨'t', rfl, rfl⟩
  · rename_i hquote hbackslash hnewline _
    exact Or.inl ⟨rfl, hquote, hbackslash, hnewline⟩

/-- The written form of a text is read back up to the quote behind it. -/
theorem readLiteral_escape (cs rest : List Char) :
    readLiteral (cs.flatMap escape ++ '"' :: rest) = some (cs, rest) := by
  induction cs with
  | nil => rfl
  | cons c cs ih =>
    rw [List.flatMap_cons, List.append_assoc]
    rcases escape_cases c with ⟨hc, hquote, hbackslash, hnewline⟩ | ⟨d, hc, hd⟩
    · rw [hc, List.singleton_append, readLiteral, ih]
      · simp [hbackslash, hnewline]
      · exact hquote
      · exact fun _ _ h => absurd h hbackslash
    · rw [hc, List.cons_append, List.singleton_append, readLiteral, hd, ih]
      rfl

theorem toList_quote (s : String) :
    (quote s).toList = '"' :: (s.toList.flatMap escape ++ ['"']) := by
  rw [quote, String.toList_ofList]
  rfl

/-- A literal at the start of a text determines its own text and what stands behind it. -/
theorem quote_append_inj {s t : String} {rest back : List Char}
    (h : (quote s).toList ++ rest = (quote t).toList ++ back) : s = t ∧ rest = back := by
  have hread : ∀ (s : String) (rest : List Char),
      readLiteral ((quote s).toList ++ rest).tail = some (s.toList, rest) := by
    intro s rest
    rw [toList_quote, List.cons_append, List.tail_cons, List.append_assoc]
    exact readLiteral_escape s.toList rest
  have hboth := hread s rest
  rw [h, hread t back] at hboth
  obtain ⟨hchars, hrest⟩ := Prod.mk.inj (Option.some.inj hboth.symm)
  exact ⟨String.toList_injective hchars, hrest⟩

/-- A text is determined by its literal. -/
theorem quote_injective : Function.Injective quote := by
  intro s t h
  have happend : (quote s).toList ++ [] = (quote t).toList ++ [] := by rw [h]
  exact (quote_append_inj happend).1

end ServiceSplit.Text
