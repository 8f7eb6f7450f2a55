import ServiceSplit.Proofs.Token.Tiling

/-!
# Where tokens end

A word ends in front of any character that is not part of a word, a mark in front of any character
that makes no longer mark of it, and quotes end a literal in any case. A number ends in front of
what goes on with no number.
-/

namespace ServiceSplit

/-! ### Numbers -/

theorem Text.inRanges_cons {r : Nat × Nat} {rs : List (Nat × Nat)} {n : Nat} :
    inRanges (r :: rs) n = true ↔ r.1 ≤ n ∧ (n ≤ r.2 ∨ inRanges rs n = true) := by
  simp [inRanges]

/-- Whether an exponent is marked by the letter. -/
def isExponentMark (c : Char) : Bool :=
  c == 'e' || c == 'E' || c == 'p' || c == 'P'

/-- Whether a number that is written `cs` ends in front of `c`. -/
def endsNumber (cs : List Char) (c : Char) : Bool :=
  !Text.isWordChar c && c != '.' && !((c == '+' || c == '-') && cs.getLast?.any isExponentMark)

namespace Recognizer

/-- What is recognized lies inside the text, and stays the same if text follows that goes on with no
number. -/
structure Steady (r : Recognizer) : Prop where
  le : ∀ cs n, r cs = some n → n ≤ cs.length
  append : ∀ cs rest, rest.head?.all (endsNumber cs) = true → r (cs ++ rest) = r cs

variable {r s : Recognizer}

theorem endsNumber_drop {cs : List Char} {n : Nat} {c : Char} (h : endsNumber cs c = true) :
    endsNumber (cs.drop n) c = true := by
  unfold endsNumber at h ⊢
  rw [List.getLast?_drop]
  split
  · simp only [Bool.and_eq_true] at h
    simp [h.1]
  · exact h

/-- No character that ends a number belongs to the class. -/
def Inside (p : Char → Bool) : Prop :=
  ∀ c, p c = true → Text.isWordChar c = true ∨ c = '.'

theorem Inside.eq_false {p : Char → Bool} (hp : Inside p) {cs : List Char} {c : Char}
    (h : endsNumber cs c = true) : p c = false := by
  by_contra hc
  rw [Bool.not_eq_false] at hc
  rcases hp c hc with hword | rfl
  · simp [endsNumber, hword] at h
  · simp [endsNumber] at h

theorem steady_one {p : Char → Bool} (hp : Inside p) : Steady (one p) where
  le := by
    intro cs n h
    cases cs with
    | nil => cases h
    | cons c cs =>
      rw [one, Option.ite_none_right_eq_some] at h
      cases h.2
      simp
  append := by
    intro cs rest hrest
    cases cs with
    | nil =>
      cases rest with
      | nil => rfl
      | cons c rest => simp [one, hp.eq_false (by simpa using hrest)]
    | cons c cs => rfl

theorem takeWhile_append_of_ends {p : Char → Bool} (hp : Inside p) {cs rest : List Char}
    (hrest : rest.head?.all (endsNumber cs) = true) :
    (cs ++ rest).takeWhile p = cs.takeWhile p := by
  rw [List.takeWhile_append]
  split
  · rename_i hall
    have hnone : rest.takeWhile p = [] := by
      cases rest with
      | nil => rfl
      | cons c rest => simp [hp.eq_false (by simpa using hrest)]
    rw [hnone, List.append_nil]
    exact (List.IsPrefix.eq_of_length (List.takeWhile_prefix p) hall).symm
  · rfl

theorem steady_run {p : Char → Bool} (hp : Inside p) : Steady (run p) where
  le := by
    intro cs n h
    have hle := (List.takeWhile_prefix p (l := cs)).length_le
    unfold run at h
    split at h
    · cases h
    · rename_i m hm
      cases h
      omega
  append := by
    intro cs rest hrest
    unfold run
    rw [takeWhile_append_of_ends hp hrest]

theorem Steady.optional (hr : Steady r) : Steady (optional r) where
  le := by
    intro cs n h
    cases h
    cases hrn : r cs with
    | none => exact Nat.zero_le _
    | some m => exact hr.le cs m hrn
  append := by
    intro cs rest hrest
    unfold Recognizer.optional
    rw [hr.append cs rest hrest]

theorem Steady.alt (hr : Steady r) (hs : Steady s) : Steady (alt r s) where
  le := by
    intro cs n h
    unfold Recognizer.alt at h
    cases hrn : r cs with
    | none =>
      rw [hrn] at h
      exact hs.le cs n h
    | some m =>
      rw [hrn] at h
      cases h
      exact hr.le cs n hrn
  append := by
    intro cs rest hrest
    unfold Recognizer.alt
    rw [hr.append cs rest hrest, hs.append cs rest hrest]

theorem head?_all_drop {cs rest : List Char} (n : Nat)
    (hrest : rest.head?.all (endsNumber cs) = true) :
    rest.head?.all (endsNumber (cs.drop n)) = true := by
  cases rest with
  | nil => rfl
  | cons c rest => exact endsNumber_drop (by simpa using hrest)

theorem seq_eq (r s : Recognizer) (cs : List Char) :
    Recognizer.seq r s cs = (r cs).bind fun m => (s (cs.drop m)).map (m + ·) := by
  unfold Recognizer.seq
  cases r cs with
  | none => rfl
  | some m =>
    cases hs : s (cs.drop m) <;> simp [hs]

/-- A sequence is steady at a text if its second part is steady behind the first. -/
theorem Steady.seq_append (hr : Steady r) {cs rest : List Char}
    (hrest : rest.head?.all (endsNumber cs) = true)
    (hs : ∀ m, r cs = some m → s (cs.drop m ++ rest) = s (cs.drop m)) :
    Recognizer.seq r s (cs ++ rest) = Recognizer.seq r s cs := by
  rw [seq_eq, seq_eq, hr.append cs rest hrest]
  cases hm : r cs with
  | none => rfl
  | some m =>
    simp only [Option.bind_some]
    rw [List.drop_append_of_le_length (hr.le cs m hm), hs m hm]

theorem Steady.seq (hr : Steady r) (hs : Steady s) : Steady (seq r s) where
  le := by
    intro cs n h
    obtain ⟨m, hm, h⟩ := Option.bind_eq_some_iff.mp h
    obtain ⟨k, hk, h⟩ := Option.bind_eq_some_iff.mp h
    cases h
    have hle := hr.le cs m hm
    have hdrop := hs.le _ k hk
    rw [List.length_drop] at hdrop
    omega
  append cs rest hrest := hr.seq_append hrest fun m _ => hs.append _ _ (head?_all_drop m hrest)

theorem isWordChar_of_isDigit {c : Char} (h : c.isDigit = true) : Text.isWordChar c = true := by
  have hc : 48 ≤ c.toNat ∧ c.toNat ≤ 57 := by
    rw [Char.isDigit, Bool.and_eq_true, decide_eq_true_eq, decide_eq_true_eq] at h
    exact ⟨h.1, h.2⟩
  have hnumeric : Text.isNumeric c = true := Text.inRanges_cons.mpr ⟨hc.1, .inl hc.2⟩
  simp [Text.isWordChar, hnumeric]

theorem isWordChar_of_letter {c : Char}
    (h : 65 ≤ c.toNat ∧ c.toNat ≤ 90 ∨ 97 ≤ c.toNat ∧ c.toNat ≤ 122) :
    Text.isWordChar c = true := by
  have hletter : Text.isLetter c = true := by
    refine Text.inRanges_cons.mpr ⟨by dsimp only; omega, ?_⟩
    rcases h with h | h
    · exact .inl h.2
    · exact .inr (Text.inRanges_cons.mpr ⟨h.1, .inl h.2⟩)
  simp [Text.isWordChar, hletter]

theorem inside_digit : Inside isDigitOrSeparator := by
  intro c hc
  rw [isDigitOrSeparator, Bool.or_eq_true] at hc
  rcases hc with hc | hc
  · exact .inl (isWordChar_of_isDigit hc)
  · simp [Text.isWordChar, hc]

theorem inside_hex : Inside isHexOrSeparator := by
  intro c hc
  simp only [isHexOrSeparator, Bool.or_eq_true, Bool.and_eq_true, decide_eq_true_eq] at hc
  rcases hc with ((hc | hc) | hc) | hc
  · exact .inl (isWordChar_of_isDigit hc)
  · exact .inl (isWordChar_of_letter (.inr ⟨hc.1, Nat.le_trans hc.2 (by decide)⟩))
  · exact .inl (isWordChar_of_letter (.inl ⟨hc.1, Nat.le_trans hc.2 (by decide)⟩))
  · simp [Text.isWordChar, hc]

/-- A class with few members, each of which goes on with a number. -/
theorem Inside.of_mem {p : Char → Bool} (cs : List Char) (h : ∀ c, p c = true → c ∈ cs)
    (hcs : cs.all (fun c => Text.isWordChar c || c == '.') = true) : Inside p := by
  intro c hc
  have := List.all_eq_true.mp hcs c (h c hc)
  simpa using this

/-- The sign of an exponent and the digits behind it; a sign that follows the text is none of
it. -/
theorem sign_digits_append {cs rest : List Char} (hrest : rest.head?.all (endsNumber cs) = true)
    (hsign : cs = [] → rest.head?.all (fun c => !(c == '+' || c == '-')) = true) :
    Recognizer.seq sign digits (cs ++ rest) = Recognizer.seq sign digits cs := by
  have hdigits : Steady digits := steady_run inside_digit
  have hle : ∀ m, sign cs = some m → m ≤ cs.length := by
    intro m hm
    cases cs with
    | nil => cases hm; exact Nat.le_refl 0
    | cons c cs =>
      simp only [sign, Recognizer.optional, one] at hm
      split at hm <;> cases hm <;> simp
  have hs : sign (cs ++ rest) = sign cs := by
    cases cs with
    | cons c cs => rfl
    | nil =>
      cases rest with
      | nil => rfl
      | cons c rest =>
        have hc : (c == '+' || c == '-') = false := by simpa using hsign rfl
        simp [sign, Recognizer.optional, one, hc]
  rw [seq_eq, seq_eq, hs]
  cases hm : sign cs with
  | none => rfl
  | some m =>
    simp only [Option.bind_some]
    rw [List.drop_append_of_le_length (hle m hm), hdigits.append _ _ (head?_all_drop m hrest)]

theorem steady_exponent {mark : Char → Bool}
    (hmark : ∀ c, mark c = true → isExponentMark c = true) :
    Steady (exponent mark) := by
  have hinside : Inside mark := by
    refine Inside.of_mem ['e', 'E', 'p', 'P'] (fun c hc => ?_) (by decide)
    simpa [isExponentMark, or_assoc] using hmark c hc
  have hone : Steady (one mark) := steady_one hinside
  constructor
  · intro cs n h
    rw [exponent, seq_eq] at h
    obtain ⟨m, hm, h⟩ := Option.bind_eq_some_iff.mp h
    obtain ⟨k, hk, rfl⟩ := Option.map_eq_some_iff.mp h
    rw [seq_eq] at hk
    obtain ⟨i, hi, hk⟩ := Option.bind_eq_some_iff.mp hk
    obtain ⟨j, hj, rfl⟩ := Option.map_eq_some_iff.mp hk
    have hj' := (steady_run inside_digit).le _ j hj
    have hj0 := positive_run _ _ j hj
    have hm' := hone.le cs m hm
    simp only [List.length_drop] at hj'
    omega
  · intro cs rest hrest
    refine hone.seq_append hrest fun m hm => sign_digits_append (head?_all_drop m hrest) ?_
    -- Where nothing stands behind the mark, the text ends in it, so no sign follows the text.
    intro hnil
    cases cs with
    | nil => cases hm
    | cons c cs =>
      rw [one, Option.ite_none_right_eq_some] at hm
      obtain ⟨hc, hm⟩ := hm
      cases hm
      rw [List.drop_succ_cons, List.drop_zero] at hnil
      subst hnil
      cases rest with
      | nil => rfl
      | cons d rest =>
        simp only [List.head?_cons, Option.all_some, endsNumber, List.getLast?_singleton,
          Option.any_some, hmark c hc, Bool.and_true, Bool.and_eq_true] at hrest
        simpa using hrest.2

/-- A number ends in front of what is not part of one. -/
theorem steady_number : Steady number := by
  have hdigits : Steady digits := steady_run inside_digit
  have hhex : Steady hexDigits := steady_run inside_hex
  have hpoint : Steady point := steady_one (Inside.of_mem ['.'] (by simp) (by decide))
  have hbase : ∀ {letter : Char → Bool} (cs : List Char), (∀ c, letter c = true → c ∈ cs) →
      cs.all (fun c => Text.isWordChar c || c == '.') = true → Steady (base letter) := by
    intro letter cs hmem hcs
    refine (steady_one (Inside.of_mem ['0'] (by simp) (by decide))).seq ?_
    exact steady_one (Inside.of_mem cs hmem hcs)
  have hdecimal : Steady decimalExponent :=
    (steady_exponent fun c hc => by simp at hc; rcases hc with rfl | rfl <;> decide).optional
  refine Steady.seq (Steady.alt ?_ (Steady.alt ?_ (Steady.alt ?_ (Steady.alt ?_ ?_)))) ?_
  · refine (hbase ['x', 'X'] (by simp) (by decide)).seq (Steady.seq ?_ ?_)
    · exact (hhex.optional.seq (hpoint.seq hhex.optional)).alt hhex
    · exact (steady_exponent fun c hc => by simp at hc; rcases hc with rfl | rfl <;>
        decide).optional
  · refine (hbase ['b', 'B'] (by simp) (by decide)).seq (steady_run ?_)
    exact Inside.of_mem ['0', '1', '_'] (by simp [or_assoc]) (by decide)
  · refine (hbase ['o', 'O'] (by simp) (by decide)).seq (steady_run ?_)
    intro c hc
    simp only [Bool.or_eq_true, Bool.and_eq_true, decide_eq_true_eq] at hc
    refine inside_digit c ?_
    simp only [isDigitOrSeparator, Bool.or_eq_true]
    rcases hc with hc | hc
    · refine .inl ?_
      simp only [Char.isDigit, Bool.and_eq_true, decide_eq_true_eq]
      exact ⟨hc.1, Nat.le_trans hc.2 (by decide)⟩
    · exact .inr hc
  · exact hdigits.seq (Steady.seq (hpoint.seq hdigits.optional).optional hdecimal)
  · exact hpoint.seq (hdigits.seq hdecimal)
  · exact (steady_one (Inside.of_mem ['i'] (by simp) (by decide))).optional

end Recognizer

/-! ### Tokens -/

namespace TokenKind

/-- Whether the text of the token is read as the token. -/
def isPlain (kind : TokenKind) : Bool :=
  match kind.text.toList with
  | [] => false
  | c :: cs =>
    match Lexeme.next c cs with
    | (.token found, []) => found == kind
    | _ => false

/-- Whether the token ends in front of the character. -/
def stops : TokenKind → Char → Bool
  | ident _, c | keyword _, c => !Text.isWordChar c
  | literal .string _, _ | literal .char _, _ => true
  | literal _ raw, c => endsNumber raw.toList c
  | punct p, c =>
    !(Punct.longestFirst.any fun q => (p.text.toList ++ [c]).isPrefixOf q.text.toList) &&
      !(p == .slash && (c == '/' || c == '*')) && !(p == .dot && c.isDigit)
  | eof, _ => false

theorem isPlain_iff {kind : TokenKind} : kind.isPlain = true ↔
    ∃ c cs, kind.text.toList = c :: cs ∧ Lexeme.next c cs = (.token kind, []) := by
  unfold isPlain
  constructor
  · intro h
    split at h
    · cases h
    · rename_i c cs htext
      split at h
      · rename_i found hnext
        exact ⟨c, cs, htext, by rw [hnext, eq_of_beq h]⟩
      · cases h
  · rintro ⟨c, cs, htext, hnext⟩
    simp [htext, hnext]

theorem stops_ofWord (word : String) (c : Char) : (ofWord word).stops c = !Text.isWordChar c := by
  unfold ofWord
  split <;> rfl

end TokenKind

end ServiceSplit
