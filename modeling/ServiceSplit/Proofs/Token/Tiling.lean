import Mathlib.Data.List.TakeDrop
import Mathlib.Data.List.TakeWhile
import ServiceSplit.Proofs.Text.Bytes
import ServiceSplit.Proofs.Token.Order

/-!
# Lexemes tile the source text

Each scanning routine takes its lexeme off the front of a text and loses nothing of it.
-/

namespace ServiceSplit

/-- Blanks are white space other than newlines, only block comments hold newlines, and the end of
the text is no token in it. -/
def Lexeme.Regular : Lexeme → Prop
  | .newline | .fault .. => True
  | .blank c => Text.isBlank c = true ∧ c ≠ '\n'
  | .comment text => '\n' ∈ text → text.take 2 = ['/', '*']
  | .token kind => kind ≠ .eof

namespace Lexeme

/-! ### Nothing is lost -/

private theorem closeComment_append {seen cs text rest : List Char}
    (h : closeComment seen cs = some (text, rest)) : text ++ rest = seen.reverse ++ cs := by
  fun_induction closeComment seen cs with
  | case1 => cases h
  | case2 seen c cs hend =>
    cases h
    cases cs with
    | nil => cases hend.2
    | cons d cs =>
      obtain ⟨rfl, hd⟩ := hend
      cases hd
      simp
  | case3 seen c cs hend ih => simpa using ih h

private theorem closeQuote_append (mark : Char) (seen cs : List Char) :
    (closeQuote mark seen cs).2.1 ++ (closeQuote mark seen cs).2.2 = seen.reverse ++ cs := by
  fun_induction closeQuote mark seen cs <;> simp_all

private theorem quoted_append (mark : Char) (kind : LitKind) (cause : SyntaxCause)
    (cs : List Char) :
    (quoted mark kind cause cs).1.text ++ (quoted mark kind cause cs).2 = mark :: cs := by
  have happend := closeQuote_append mark [mark] cs
  unfold quoted
  split <;> rename_i hclose <;> rw [hclose] at happend
  · simpa [text, TokenKind.text] using happend
  · exact happend

private theorem rawString_append (cs : List Char) :
    (rawString cs).1.text ++ (rawString cs).2 = '\x60' :: cs := by
  have hspan := List.takeWhile_append_dropWhile (p := (· != '\x60')) (l := cs)
  unfold rawString
  dsimp only
  rw [List.span_eq_takeWhile_dropWhile]
  split
  · rename_i front c rest heq
    obtain ⟨hfront, hrest⟩ := Prod.mk.inj heq
    have hc : c = '\x60' := by
      have hhead := List.head?_dropWhile_not (· != '\x60') cs
      rw [hrest] at hhead
      simpa using hhead
    rw [hfront, hrest, hc] at hspan
    simpa [text, TokenKind.text] using hspan
  · rename_i front heq
    obtain ⟨hfront, hrest⟩ := Prod.mk.inj heq
    rw [hfront, hrest] at hspan
    simpa [text] using hspan

private theorem number_append (cs : List Char) :
    (number cs).1.text ++ (number cs).2 = cs := by
  unfold number
  simp only [List.span_eq_takeWhile_dropWhile]
  generalize (Recognizer.number cs).getD 1 = size
  have hspan := List.takeWhile_append_dropWhile (p := Text.isWordChar) (l := cs.drop size)
  split
  · rename_i hextra
    rw [List.isEmpty_iff.mp hextra, List.nil_append] at hspan
    simp [text, TokenKind.text, hspan]
  · simp [text, hspan]

private theorem mark_append (c : Char) (cs : List Char) :
    (mark c cs).1.text ++ (mark c cs).2 = c :: cs := by
  unfold mark
  split
  · rename_i p hp
    have hpre : p.text.toList <+: c :: cs := List.isPrefixOf_iff_prefix.mp (by
      simpa using List.find?_some hp)
    obtain ⟨back, hback⟩ := hpre
    have hlen : ∃ k, p.text.toList.length = k + 1 := by
      cases p <;> exact ⟨_, rfl⟩
    obtain ⟨k, hk⟩ := hlen
    have hdrop : (c :: cs).drop (k + 1) = back := by
      rw [← hback, ← hk, List.drop_left]
    change p.text.toList ++ cs.drop (p.text.length - 1) = c :: cs
    rw [← String.length_toList, hk, Nat.add_sub_cancel, ← hback, ← hdrop, List.drop_succ_cons]
  · rfl

private theorem append_of_span {p : Char → Bool} {cs front rest : List Char}
    (h : cs.span p = (front, rest)) : front ++ rest = cs := by
  rw [List.span_eq_takeWhile_dropWhile] at h
  cases h
  exact List.takeWhile_append_dropWhile

/-- The first lexeme of a text and the rest of the text, put together, are the text. -/
theorem next_append (c : Char) (cs : List Char) :
    (next c cs).1.text ++ (next c cs).2 = c :: cs := by
  fun_cases next c cs with
  | case1 hnewline => exact congrArg (· :: cs) hnewline.symm
  | case2 _ _ front rest hspan => simpa [text] using append_of_span hspan
  | case3 _ _ hblock front rest hclose =>
    cases cs with
    | nil => cases hblock.2
    | cons d cs =>
      obtain ⟨rfl, hd⟩ := hblock
      cases hd
      simpa [text] using closeComment_append hclose
  | case4 => exact List.append_nil _
  | case5 => rfl
  | case6 _ _ _ _ _ front rest hspan => simpa [text, text_ofWord] using append_of_span hspan
  | case7 => exact number_append (c :: cs)
  | case8 | case9 => exact quoted_append _ _ _ _
  | case10 _ _ _ _ _ _ _ _ hraw =>
    rw [hraw]
    exact rawString_append cs
  | case11 => exact mark_append c cs

/-! ### What lexemes look like -/

private theorem ofWord_ne_eof (word : String) : TokenKind.ofWord word ≠ .eof := by
  unfold TokenKind.ofWord
  split <;> exact nofun

private theorem quoted_regular (mark : Char) (kind : LitKind) (cause : SyntaxCause)
    (cs : List Char) : (quoted mark kind cause cs).1.Regular := by
  unfold quoted
  split
  · exact nofun
  · trivial

private theorem rawString_regular (cs : List Char) : (rawString cs).1.Regular := by
  unfold rawString
  dsimp only
  split
  · exact nofun
  · trivial

private theorem number_regular (cs : List Char) : (number cs).1.Regular := by
  unfold number
  dsimp only
  split
  · exact nofun
  · trivial

private theorem mark_regular (c : Char) (cs : List Char) : (mark c cs).1.Regular := by
  unfold mark
  split
  · exact nofun
  · trivial

private theorem closeComment_take {seen cs text rest : List Char}
    (h : closeComment seen cs = some (text, rest)) : seen.reverse <+: text := by
  fun_induction closeComment seen cs with
  | case1 => cases h
  | case2 seen c cs hend =>
    cases h
    simp
  | case3 seen c cs hend ih =>
    exact (List.prefix_append _ [c]).trans (by simpa using ih h)

theorem next_regular (c : Char) (cs : List Char) : (next c cs).1.Regular := by
  fun_cases next c cs with
  | case1 | case4 => trivial
  | case2 hnewline _ front rest hspan =>
    rw [List.span_eq_takeWhile_dropWhile] at hspan
    cases hspan
    intro hmem
    rcases List.mem_cons.mp hmem with hc | hmem
    · exact absurd hc.symm hnewline
    · exact absurd (List.mem_takeWhile_imp hmem) (by simp)
  | case3 _ _ _ front rest hclose =>
    intro _
    obtain ⟨back, rfl⟩ := closeComment_take hclose
    rfl
  | case5 hnewline _ _ hblank => exact ⟨hblank, hnewline⟩
  | case6 => exact ofWord_ne_eof _
  | case7 => exact number_regular _
  | case8 | case9 => exact quoted_regular _ _ _ _
  | case10 => exact rawString_regular _
  | case11 => exact mark_regular _ _

end Lexeme

/-! ### All lexemes of a text -/

theorem lexemesFrom_text (seen : List Lexeme) {fuel : Nat} {cs : List Char}
    (hfuel : cs.length ≤ fuel) :
    (lexemesFrom seen fuel cs).flatMap Lexeme.text = seen.reverse.flatMap Lexeme.text ++ cs := by
  induction fuel generalizing seen cs with
  | zero =>
    rw [List.eq_nil_of_length_eq_zero (Nat.le_zero.mp hfuel), lexemesFrom, List.append_nil]
  | succ fuel ih =>
    cases cs with
    | nil => simp [lexemesFrom]
    | cons c cs =>
      have happend := Lexeme.next_append c cs
      have hlen := congrArg List.length happend
      have hpos := List.length_pos_iff.mpr (Lexeme.next_text_ne_nil c cs)
      rw [List.length_append, List.length_cons] at hlen
      rw [List.length_cons] at hfuel
      change (lexemesFrom ((Lexeme.next c cs).1 :: seen) fuel (Lexeme.next c cs).2).flatMap _ = _
      rw [ih _ (by omega), ← happend]
      simp

/-- The texts of the lexemes of a text, put together, are the text. -/
theorem lexemes_text (cs : List Char) : (lexemes cs).flatMap Lexeme.text = cs := by
  exact lexemesFrom_text [] (Nat.le_refl cs.length)

theorem regular_of_mem_lexemesFrom {fuel : Nat} {seen : List Lexeme} {cs : List Char}
    (hseen : ∀ l ∈ seen, l.Regular) : ∀ l ∈ lexemesFrom seen fuel cs, l.Regular := by
  induction fuel generalizing seen cs with
  | zero => simpa [lexemesFrom] using hseen
  | succ fuel ih =>
    cases cs with
    | nil => simpa [lexemesFrom] using hseen
    | cons c cs => exact ih (List.forall_mem_cons.mpr ⟨Lexeme.next_regular c cs, hseen⟩)

end ServiceSplit
