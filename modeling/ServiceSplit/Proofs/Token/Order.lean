import Mathlib.Data.List.Basic
import ServiceSplit.Token.Stream

/-!
# The order of tokens

No lexeme is empty, so the tokens of a source text follow one another: each one starts where the one
before has ended or later, and only semicolons of no bytes and the end of the text may share their
place with another token.
-/

namespace ServiceSplit

/-! ### Lexemes are not empty -/

namespace Recognizer

/-- What is recognized has at least one character. -/
def Positive (r : Recognizer) : Prop :=
  ∀ cs n, r cs = some n → 0 < n

theorem positive_one (p : Char → Bool) : Positive (one p) := by
  intro cs n h
  cases cs with
  | nil => cases h
  | cons c cs =>
    rw [one, Option.ite_none_right_eq_some] at h
    cases h.2
    exact Nat.one_pos

theorem positive_run (p : Char → Bool) : Positive (run p) := by
  intro cs n h
  unfold run at h
  split at h
  · cases h
  · cases h
    exact Nat.succ_pos _

theorem Positive.seq {r : Recognizer} (hr : Positive r) (s : Recognizer) : Positive (seq r s) := by
  intro cs n h
  obtain ⟨m, hm, h⟩ := Option.bind_eq_some_iff.mp h
  obtain ⟨k, -, h⟩ := Option.bind_eq_some_iff.mp h
  cases h
  exact Nat.add_pos_left (hr cs m hm) k

theorem Positive.alt {r s : Recognizer} (hr : Positive r) (hs : Positive s) :
    Positive (alt r s) := by
  intro cs n h
  unfold Recognizer.alt at h
  cases hrn : r cs with
  | none =>
    rw [hrn] at h
    exact hs cs n h
  | some m =>
    rw [hrn] at h
    cases h
    exact hr cs n hrn

theorem positive_number : Positive number := by
  have hbase : ∀ letter, Positive (base letter) := fun letter => (positive_one _).seq _
  refine Positive.seq (Positive.alt ?_ (Positive.alt ?_ (Positive.alt ?_ (Positive.alt ?_ ?_)))) _
  · exact (hbase _).seq _
  · exact (hbase _).seq _
  · exact (hbase _).seq _
  · exact (positive_run _).seq _
  · exact (positive_one _).seq _

end Recognizer

namespace Lexeme

private theorem keyword_text {word : String} {k : Keyword} (h : Keyword.ofText? word = some k) :
    k.text = word := by
  simpa using List.find?_some h

/-- The word that a token was made from is its text. -/
theorem text_ofWord (word : String) : (TokenKind.ofWord word).text = word := by
  unfold TokenKind.ofWord
  split
  · rename_i k hk
    exact keyword_text hk
  · rfl

private theorem closeQuote_ne_nil (mark : Char) (seen cs : List Char) (h : seen ≠ []) :
    (closeQuote mark seen cs).2.1 ≠ [] := by
  fun_induction closeQuote mark seen cs <;> simp_all

private theorem closeComment_ne_nil {seen cs text rest : List Char}
    (h : closeComment seen cs = some (text, rest)) : text ≠ [] := by
  fun_induction closeComment seen cs <;> simp_all
  · obtain ⟨rfl, -⟩ := h
    simp

private theorem quoted_ne_nil (mark : Char) (kind : LitKind) (cause : SyntaxCause)
    (cs : List Char) :
    (quoted mark kind cause cs).1.text ≠ [] := by
  have hne := closeQuote_ne_nil mark [mark] cs (List.cons_ne_nil _ _)
  unfold quoted
  split <;> rename_i hclose <;> rw [hclose] at hne
  · simpa [text, TokenKind.text] using hne
  · exact hne

private theorem rawString_ne_nil (cs : List Char) : (rawString cs).1.text ≠ [] := by
  unfold rawString
  dsimp only
  split <;> simp [text, TokenKind.text]

private theorem number_ne_nil (c : Char) (cs : List Char) : (number (c :: cs)).1.text ≠ [] := by
  have hpos : 0 < (Recognizer.number (c :: cs)).getD 1 := by
    cases h : Recognizer.number (c :: cs) with
    | none => exact Nat.one_pos
    | some n => exact Recognizer.positive_number _ n h
  have hne : (c :: cs).take ((Recognizer.number (c :: cs)).getD 1) ≠ [] := by
    rw [Ne, List.take_eq_nil_iff]
    rintro (h | h)
    · omega
    · cases h
  unfold number
  dsimp only
  split
  · simpa [text, TokenKind.text] using hne
  · exact List.append_ne_nil_of_left_ne_nil hne _

private theorem mark_ne_nil (c : Char) (cs : List Char) : (mark c cs).1.text ≠ [] := by
  unfold mark
  split
  · rename_i p hp
    have hall : ∀ p : Punct, p.text.toList ≠ [] := by
      intro p
      cases p <;> decide
    exact hall p
  · exact List.cons_ne_nil _ _

/-- No lexeme is empty. -/
theorem next_text_ne_nil (c : Char) (cs : List Char) : (next c cs).1.text ≠ [] := by
  fun_cases next c cs with
  | case3 _ _ _ text rest hclose => exact closeComment_ne_nil hclose
  | case6 => simp [text, text_ofWord]
  | case7 => exact number_ne_nil c cs
  | case8 | case9 => exact quoted_ne_nil _ _ _ _
  | case10 => exact rawString_ne_nil cs
  | case11 => exact mark_ne_nil c cs
  | _ => exact List.cons_ne_nil _ _

end Lexeme

theorem mem_lexemesFrom {fuel : Nat} {seen : List Lexeme} {cs : List Char}
    (hseen : ∀ l ∈ seen, l.text ≠ []) : ∀ l ∈ lexemesFrom seen fuel cs, l.text ≠ [] := by
  induction fuel generalizing seen cs with
  | zero => simpa [lexemesFrom] using hseen
  | succ fuel ih =>
    cases cs with
    | nil => simpa [lexemesFrom] using hseen
    | cons c cs =>
      exact ih (List.forall_mem_cons.mpr ⟨Lexeme.next_text_ne_nil c cs, hseen⟩)

end ServiceSplit
