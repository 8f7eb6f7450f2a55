import ServiceSplit.Proofs.Token.Separation

/-!
# Tokens that are read again

A token that is read from a text is read again in front of any other text that does not go on with
it, and so from its own text alone. Words, marks and quoted literals show their end; a number
literal may have been cut off where a longer spelling failed, so its recognizers must not need to
see the text behind what they recognize.
-/

namespace ServiceSplit

namespace Recognizer

variable {r s : Recognizer}

/-! ### Recognizing without the text behind -/

/-- A spelling that ends in front of the end of the text stays the same if the text goes on. -/
def Settles (r : Recognizer) : Prop :=
  ∀ cs rest n, r cs = some n → n < cs.length → r (cs ++ rest) = some n

/-- What is recognized at the start of a text is recognized in any front part that holds it, and a
text is still recognized, perhaps in another way, if it goes on. -/
structure IsLocal (r : Recognizer) : Prop where
  cut : ∀ cs rest n, r (cs ++ rest) = some n → n ≤ cs.length → r cs = some n
  grows : ∀ cs rest, (r cs).isSome = true → (r (cs ++ rest)).isSome = true

theorem IsLocal.eq_none (hr : IsLocal r) {cs rest : List Char} (h : r (cs ++ rest) = none) :
    r cs = none := by
  by_contra hsome
  have hgrown := hr.grows cs rest (Option.isSome_iff_ne_none.mpr hsome)
  rw [h] at hgrown
  cases hgrown

theorem settles_one (p : Char → Bool) : Settles (one p) := by
  intro cs rest n h _
  cases cs with
  | nil => cases h
  | cons c cs => exact h

theorem isLocal_one (p : Char → Bool) : IsLocal (one p) where
  cut := by
    intro cs rest n h hn
    cases cs with
    | nil =>
      obtain rfl := Nat.le_zero.mp hn
      exact absurd (positive_one p _ 0 h) (Nat.lt_irrefl 0)
    | cons c cs => exact h
  grows := by
    intro cs rest h
    cases cs with
    | nil => cases h
    | cons c cs => exact h

theorem run_eq_some_iff {p : Char → Bool} {cs : List Char} {n : Nat} :
    run p cs = some n ↔ (cs.takeWhile p).length = n ∧ 0 < n := by
  unfold run
  split <;> rename_i h <;> simp [h] <;> omega

theorem settles_run (p : Char → Bool) : Settles (run p) := by
  intro cs rest n h hn
  rw [run_eq_some_iff] at h ⊢
  rwa [List.takeWhile_append, if_neg (by omega)]

theorem isLocal_run (p : Char → Bool) : IsLocal (run p) where
  cut := by
    intro cs rest n h hn
    rw [run_eq_some_iff, List.takeWhile_append] at h
    rw [run_eq_some_iff]
    split at h
    · rename_i hall
      rw [List.length_append] at h
      exact ⟨by omega, h.2⟩
    · exact h
  grows := by
    intro cs rest h
    obtain ⟨n, hn⟩ := Option.isSome_iff_exists.mp h
    rw [run_eq_some_iff] at hn
    rw [Option.isSome_iff_exists]
    refine ⟨_, run_eq_some_iff.mpr ⟨rfl, ?_⟩⟩
    rw [List.takeWhile_append]
    split
    · rw [List.length_append]
      omega
    · omega

/-- An option settles if a text that has begun without it does not take it up later. -/
theorem Settles.optional (hr : Settles r)
    (hnone : ∀ c cs rest, r (c :: cs) = none → r (c :: cs ++ rest) = none) :
    Settles (optional r) := by
  intro cs rest n h hn
  unfold Recognizer.optional at h ⊢
  cases hrn : r cs with
  | some m =>
    rw [hrn] at h
    cases h
    rw [hr cs rest _ hrn hn]
  | none =>
    rw [hrn] at h
    cases h
    cases cs with
    | nil => cases hn
    | cons c cs => rw [hnone c cs rest hrn]

theorem settles_optional_one (p : Char → Bool) : Settles (optional (one p)) :=
  (settles_one p).optional fun _ _ _ h => h

theorem settles_optional_run (p : Char → Bool) : Settles (optional (run p)) := by
  refine (settles_run p).optional fun c cs rest h => ?_
  have hc : p c = false := by
    by_contra hc
    rw [Bool.not_eq_false] at hc
    have hsome : run p (c :: cs) = some ((c :: cs).takeWhile p).length :=
      run_eq_some_iff.mpr ⟨rfl, by simp [hc]⟩
    rw [h] at hsome
    cases hsome
  simp [run, hc]

theorem seq_eq_some_iff {cs : List Char} {n : Nat} :
    Recognizer.seq r s cs = some n ↔ ∃ m k, r cs = some m ∧ s (cs.drop m) = some k ∧ m + k = n := by
  rw [seq_eq, Option.bind_eq_some_iff]
  refine exists_congr fun m => ?_
  rw [Option.map_eq_some_iff]
  exact ⟨fun ⟨hm, k, hk⟩ => ⟨k, hm, hk⟩, fun ⟨k, hm, hk⟩ => ⟨hm, k, hk⟩⟩

theorem Settles.seq (hr : Settles r) (hs : Settles s) : Settles (seq r s) := by
  intro cs rest n h hn
  obtain ⟨m, k, hm, hk, rfl⟩ := seq_eq_some_iff.mp h
  refine seq_eq_some_iff.mpr ⟨m, k, hr cs rest m hm (by omega), ?_, rfl⟩
  rw [List.drop_append_of_le_length (by omega)]
  exact hs _ rest k hk (by rw [List.length_drop]; omega)

theorem IsLocal.optional (hr : IsLocal r) : IsLocal (optional r) where
  cut := by
    intro cs rest n h hn
    unfold Recognizer.optional at h ⊢
    cases hrn : r (cs ++ rest) with
    | some m =>
      rw [hrn] at h
      cases h
      rw [hr.cut cs rest _ hrn hn]
    | none =>
      rw [hrn] at h
      cases h
      rw [hr.eq_none hrn]
  grows := fun _ _ _ => rfl

theorem IsLocal.alt (hr : IsLocal r) (hs : IsLocal s) : IsLocal (alt r s) where
  cut := by
    intro cs rest n h hn
    unfold Recognizer.alt at h ⊢
    cases hrn : r (cs ++ rest) with
    | some m =>
      rw [hrn] at h
      cases h
      rw [hr.cut cs rest n hrn hn]
      rfl
    | none =>
      rw [hrn] at h
      rw [hr.eq_none hrn]
      exact hs.cut cs rest n h hn
  grows := by
    intro cs rest h
    unfold Recognizer.alt at h ⊢
    cases hrn : r (cs ++ rest) with
    | some m => rfl
    | none =>
      rw [hr.eq_none hrn] at h
      exact hs.grows cs rest h

theorem seq_cut (hr : IsLocal r) (hs : IsLocal s) (cs rest : List Char) (n : Nat)
    (h : Recognizer.seq r s (cs ++ rest) = some n) (hn : n ≤ cs.length) :
    Recognizer.seq r s cs = some n := by
  obtain ⟨m, k, hm, hk, rfl⟩ := seq_eq_some_iff.mp h
  rw [List.drop_append_of_le_length (by omega)] at hk
  refine seq_eq_some_iff.mpr ⟨m, k, hr.cut cs rest m hm (by omega), ?_, rfl⟩
  exact hs.cut _ rest k hk (by rw [List.length_drop]; omega)

/-- A sequence whose second part takes any text. -/
theorem IsLocal.seq_total (hr : IsLocal r) (hs : IsLocal s) (htotal : ∀ cs, (s cs).isSome = true) :
    IsLocal (seq r s) where
  cut := seq_cut hr hs
  grows := by
    intro cs rest h
    obtain ⟨n, hn⟩ := Option.isSome_iff_exists.mp h
    obtain ⟨m, k, hm, hk, rfl⟩ := seq_eq_some_iff.mp hn
    obtain ⟨m', hm'⟩ := Option.isSome_iff_exists.mp (hr.grows cs rest (by rw [hm]; rfl))
    obtain ⟨k', hk'⟩ := Option.isSome_iff_exists.mp (htotal ((cs ++ rest).drop m'))
    rw [seq_eq_some_iff.mpr ⟨m', k', hm', hk', rfl⟩]
    rfl

/-- A sequence whose second part needs some text, so that the first one ends in front of the end. -/
theorem IsLocal.seq_settled (hr : IsLocal r) (hsettles : Settles r) (hs : IsLocal s)
    (hnil : s [] = none) : IsLocal (seq r s) where
  cut := seq_cut hr hs
  grows := by
    intro cs rest h
    obtain ⟨n, hn⟩ := Option.isSome_iff_exists.mp h
    obtain ⟨m, k, hm, hk, rfl⟩ := seq_eq_some_iff.mp hn
    have hlt : m < cs.length := by
      by_contra hle
      rw [List.drop_eq_nil_iff.mpr (by omega), hnil] at hk
      cases hk
    have hgrown := hs.grows (cs.drop m) rest (by rw [hk]; rfl)
    rw [← List.drop_append_of_le_length (by omega)] at hgrown
    obtain ⟨k', hk'⟩ := Option.isSome_iff_exists.mp hgrown
    rw [seq_eq_some_iff.mpr ⟨m, k', hsettles cs rest m hm hlt, hk', rfl⟩]
    rfl

/-! ### Numbers -/

theorem isLocal_exponent (mark : Char → Bool) : IsLocal (exponent mark) := by
  refine (isLocal_one mark).seq_settled (settles_one mark) ?_ rfl
  exact (isLocal_one _).optional.seq_settled (settles_optional_one _) (isLocal_run _) rfl

theorem isLocal_base (letter : Char → Bool) : IsLocal (base letter) :=
  (isLocal_one _).seq_settled (settles_one _) (isLocal_one letter) rfl

theorem settles_base (letter : Char → Bool) : Settles (base letter) :=
  (settles_one _).seq (settles_one letter)

theorem isLocal_hexNumber : IsLocal hexNumber := by
  refine (isLocal_base _).seq_settled (settles_base _) (IsLocal.seq_total ?_ ?_ fun _ => rfl) rfl
  · refine IsLocal.alt ?_ (isLocal_run _)
    refine (isLocal_run _).optional.seq_settled (settles_optional_run _) ?_ rfl
    exact (isLocal_one _).seq_total (isLocal_run _).optional fun _ => rfl
  · exact (isLocal_exponent _).optional

theorem isLocal_decimalNumber : IsLocal decimalNumber := by
  have hexponent : IsLocal decimalExponent := (isLocal_exponent _).optional
  refine IsLocal.alt ?_ ?_
  · refine (isLocal_run _).seq_total (IsLocal.seq_total ?_ hexponent fun _ => rfl) fun _ => rfl
    exact ((isLocal_one _).seq_total (isLocal_run _).optional fun _ => rfl).optional
  · refine (isLocal_one _).seq_settled (settles_one _) ?_ rfl
    exact (isLocal_run _).seq_total hexponent fun _ => rfl

/-- Number literals are recognized without the text behind them. -/
theorem isLocal_number : IsLocal number := by
  have hdigits : ∀ letter p, IsLocal (Recognizer.seq (base letter) (run p)) := fun letter p =>
    (isLocal_base letter).seq_settled (settles_base letter) (isLocal_run p) rfl
  refine IsLocal.seq_total ?_ (isLocal_one _).optional fun _ => rfl
  exact isLocal_hexNumber.alt ((hdigits _ _).alt ((hdigits _ _).alt isLocal_decimalNumber))

end Recognizer

/-! ### Tokens -/

namespace Lexeme

variable {kind : TokenKind} {c : Char} {cs rest rest' : List Char}

theorem span_append {p : Char → Bool} (hcs : ∀ d ∈ cs, p d = true)
    (hrest : rest.head?.all (!p ·) = true) : (cs ++ rest).span p = (cs, rest) := by
  rw [List.span_eq_takeWhile_dropWhile, List.takeWhile_append_of_pos hcs,
    List.dropWhile_append_of_pos hcs]
  cases rest with
  | nil => simp
  | cons d rest =>
    have hd : p d = false := by simpa using hrest
    simp [hd]

theorem eq_of_span {p : Char → Bool} (h : ((cs ++ rest).span p).2 = rest) :
    ((cs ++ rest).span p).1 = cs ∧ ∀ d ∈ cs, p d = true := by
  rw [List.span_eq_takeWhile_dropWhile] at h ⊢
  have hall := List.takeWhile_append_dropWhile (p := p) (l := cs ++ rest)
  rw [show List.dropWhile p _ = rest from h, List.append_left_inj] at hall
  exact ⟨hall, fun d hd => List.mem_takeWhile_imp (hall ▸ hd)⟩

theorem word_cut
    (h : (token (.ofWord (String.ofList (c :: ((cs ++ rest).span Text.isWordChar).1))),
      ((cs ++ rest).span Text.isWordChar).2) = (token kind, rest))
    (hrest : rest'.head?.all kind.stops = true) :
    (token (.ofWord (String.ofList (c :: ((cs ++ rest').span Text.isWordChar).1))),
      ((cs ++ rest').span Text.isWordChar).2) = (token kind, rest') := by
  obtain ⟨hkind, hdrop⟩ := Prod.mk.inj h
  obtain ⟨hfront, hword⟩ := eq_of_span hdrop
  rw [hfront] at hkind
  rw [← token.inj hkind, show TokenKind.stops _ = _ from funext (TokenKind.stops_ofWord _)] at hrest
  rw [span_append hword hrest, hkind]

theorem closeQuote_cons {mark c : Char} (hc : c ≠ '\\') (seen cs : List Char) :
    closeQuote mark seen (c :: cs) =
      if c = '\n' then (false, seen.reverse, c :: cs)
      else if c = mark then (true, (c :: seen).reverse, cs)
      else closeQuote mark (c :: seen) cs := by
  rw [closeQuote]
  · exact fun h => absurd h hc
  · exact fun _ _ h => absurd h hc

/-- A quoted literal ends with its quote, whatever follows. -/
theorem exists_of_closeQuote {mark : Char} {seen text : List Char}
    (h : closeQuote mark seen cs = (true, text, rest)) : ∃ front, cs = front ++ rest ∧
      ∀ rest', closeQuote mark seen (front ++ rest') = (true, text, rest') := by
  have hne : ∀ {c : Char} {cs : List Char}, (c = '\\' → cs = [] → False) →
      (∀ d ds, c = '\\' → cs = d :: ds → False) → c ≠ '\\' := by
    intro c cs hnil hcons hc
    cases cs with
    | nil => exact hnil hc rfl
    | cons d cs => exact hcons d cs hc rfl
  fun_induction closeQuote mark seen cs with
  | case1 | case2 | case4 => cases h
  | case3 seen d cs ih =>
    obtain ⟨front, rfl, hfront⟩ := ih h
    exact ⟨'\\' :: d :: front, rfl, hfront⟩
  | case5 seen cs hnil hcons hline =>
    cases h
    refine ⟨[mark], rfl, fun rest' => ?_⟩
    rw [List.singleton_append, closeQuote_cons (hne hnil hcons), if_neg hline, if_pos rfl]
  | case6 seen c cs hnil hcons hline hmark ih =>
    obtain ⟨front, rfl, hfront⟩ := ih h
    refine ⟨c :: front, rfl, fun rest' => ?_⟩
    rw [List.cons_append, closeQuote_cons (hne hnil hcons), if_neg hline, if_neg hmark, hfront]

theorem quoted_cut {mark : Char} {lit : LitKind} {cause : SyntaxCause}
    (h : quoted mark lit cause (cs ++ rest) = (token kind, rest)) :
    quoted mark lit cause (cs ++ rest') = (token kind, rest') := by
  unfold quoted at h ⊢
  split at h
  · rename_i hclose
    cases h
    obtain ⟨front, hcs, hfront⟩ := exists_of_closeQuote hclose
    rw [List.append_cancel_right hcs, hfront]
  · cases h

theorem rawString_cut (h : rawString (cs ++ rest) = (token kind, rest)) :
    rawString (cs ++ rest') = (token kind, rest') := by
  unfold rawString at h ⊢
  dsimp only at h ⊢
  have hall := List.takeWhile_append_dropWhile (p := (· != '\x60')) (l := cs ++ rest)
  have hhead := List.head?_dropWhile_not (· != '\x60') (cs ++ rest)
  have hfront := fun d => List.mem_takeWhile_imp (p := (· != '\x60')) (l := cs ++ rest) (x := d)
  rw [List.span_eq_takeWhile_dropWhile] at h
  generalize (cs ++ rest).takeWhile (· != '\x60') = front at h hall hfront
  cases hback : (cs ++ rest).dropWhile (· != '\x60') with
  | nil =>
    rw [hback] at h
    cases h
  | cons c behind =>
    rw [hback] at h hall hhead
    cases h
    have hcs : cs = front ++ [c] := by
      rw [← List.singleton_append, ← List.append_assoc, List.append_left_inj] at hall
      exact hall.symm
    rw [hcs, List.append_assoc, span_append hfront (by simpa using hhead)]
    rfl

/-- A number that is read: the literal is what the recognizer takes, and no letter or digit
follows. -/
theorem number_eq_iff (hne : cs ≠ []) : number (cs ++ rest) = (token kind, rest) ↔
    (Recognizer.number (cs ++ rest)).getD 1 = cs.length ∧
    rest.head?.all (!Text.isWordChar ·) = true ∧
      kind = .literal (.ofNumber cs) (String.ofList cs) := by
  have hle : (Recognizer.number (cs ++ rest)).getD 1 ≤ (cs ++ rest).length := by
    cases hn : Recognizer.number (cs ++ rest) with
    | none =>
      have hpos := List.length_pos_iff.mpr hne
      rw [Option.getD_none, List.length_append]
      omega
    | some n => exact Recognizer.steady_number.le _ n hn
  unfold number
  dsimp only
  generalize (Recognizer.number (cs ++ rest)).getD 1 = size at hle ⊢
  have hall := List.takeWhile_append_dropWhile (p := Text.isWordChar) (l := (cs ++ rest).drop size)
  rw [List.span_eq_takeWhile_dropWhile]
  constructor
  · intro h
    split at h
    · rename_i hextra
      obtain ⟨hkind, hrest⟩ := Prod.mk.inj h
      have hnone : ((cs ++ rest).drop size).takeWhile Text.isWordChar = [] :=
        List.isEmpty_iff.mp hextra
      rw [hnone, List.nil_append, show List.dropWhile _ _ = rest from hrest] at hall
      have hlen := congrArg List.length hall
      rw [List.length_drop, List.length_append] at hlen
      rw [List.length_append] at hle
      obtain rfl : size = cs.length := by omega
      rw [List.drop_left] at hnone
      rw [List.take_left] at hkind
      refine ⟨rfl, ?_, (token.inj hkind).symm⟩
      cases rest with
      | nil => rfl
      | cons d rest => simpa using hnone
    · cases h
  · rintro ⟨rfl, hrest, rfl⟩
    have hspan : ([] ++ rest).span Text.isWordChar = ([], rest) := span_append nofun hrest
    rw [← List.span_eq_takeWhile_dropWhile, List.drop_left, List.take_left,
      ← List.nil_append rest, hspan]
    rfl

theorem ofNumber_ne (cs : List Char) :
    LitKind.ofNumber cs ≠ .string ∧ LitKind.ofNumber cs ≠ .char := by
  unfold LitKind.ofNumber
  dsimp only
  split
  · exact ⟨nofun, nofun⟩
  · split
    · split <;> exact ⟨nofun, nofun⟩
    · exact ⟨nofun, nofun⟩
    · exact ⟨nofun, nofun⟩
    · split <;> exact ⟨nofun, nofun⟩

/-- The literal is cut off at its end; letters and digits behind it would have spoiled it. -/
theorem number_cut (hne : cs ≠ []) (h : number (cs ++ rest) = (token kind, rest))
    (hrest : rest'.head?.all kind.stops = true) : number (cs ++ rest') = (token kind, rest') := by
  obtain ⟨hsize, -, rfl⟩ := (number_eq_iff hne).mp h
  have hends : rest'.head?.all (endsNumber cs) = true := by
    have hstops : (TokenKind.literal (.ofNumber cs) (String.ofList cs)).stops = endsNumber cs := by
      funext c
      have hkind := ofNumber_ne cs
      cases hk : LitKind.ofNumber cs <;> simp_all [TokenKind.stops]
    rwa [hstops] at hrest
  refine (number_eq_iff hne).mpr ⟨?_, ?_, rfl⟩
  · rw [Recognizer.steady_number.append cs rest' hends]
    cases hn : Recognizer.number (cs ++ rest) with
    | some n =>
      rw [hn, Option.getD_some] at hsize
      rw [Recognizer.isLocal_number.cut cs rest n hn (Nat.le_of_eq hsize), Option.getD_some, hsize]
    | none =>
      rw [hn] at hsize
      rw [Recognizer.isLocal_number.eq_none hn, hsize]
  · cases rest' with
    | nil => rfl
    | cons d rest' =>
      simp only [List.head?_cons, Option.all_some, endsNumber, Bool.and_eq_true] at hends ⊢
      exact hends.1.1

theorem isPlain_punct (p : Punct) : (TokenKind.punct p).isPlain = true := by
  cases p <;> decide

/-- The longest mark at the start of a text is the same if text follows that goes on with no
mark. -/
theorem isPrefixOf_append_of_stops {p q : Punct}
    (hrest : rest.head?.all (TokenKind.punct p).stops = true) :
    q.text.toList.isPrefixOf (p.text.toList ++ rest) = q.text.toList.isPrefixOf p.text.toList := by
  rw [Bool.eq_iff_iff, List.isPrefixOf_iff_prefix, List.isPrefixOf_iff_prefix]
  constructor
  · intro h
    rcases List.prefix_or_prefix_of_prefix h (List.prefix_append p.text.toList rest) with hq | hp
    · exact hq
    · obtain ⟨back, hback⟩ := hp
      cases back with
      | nil =>
        rw [List.append_nil] at hback
        exact hback ▸ List.prefix_refl _
      | cons c back =>
        rw [← hback, List.prefix_append_right_inj] at h
        obtain ⟨behind, rfl⟩ := h
        have hq : q ∈ Punct.longestFirst := by cases q <;> decide
        have hc : (TokenKind.punct p).stops c = true := by simpa using hrest
        simp only [TokenKind.stops, Bool.and_eq_true, Bool.not_eq_true'] at hc
        have := List.any_eq_false.mp hc.1.1 q hq
        rw [List.isPrefixOf_iff_prefix] at this
        refine absurd ?_ this
        exact ⟨back, by simpa using hback⟩
  · intro h
    exact h.trans (List.prefix_append _ _)

theorem mark_cut (h : mark c (cs ++ rest) = (token kind, rest)) (htext : kind.text.toList = c :: cs)
    (hrest : rest'.head?.all kind.stops = true) : mark c (cs ++ rest') = (token kind, rest') := by
  unfold mark at h
  split at h
  · rename_i p hp
    cases (Prod.mk.inj h).1
    have htext : p.text.toList = c :: cs := htext
    have hfirst : Punct.longestFirst.find? (fun q => q.text.toList.isPrefixOf p.text.toList) =
      some p := by
      cases p <;> decide
    have hlen : p.text.length - 1 = cs.length := by
      rw [← String.length_toList, htext]
      rfl
    simp only [mark, ← List.cons_append, ← htext, isPrefixOf_append_of_stops hrest, hfirst, hlen,
      List.drop_left]
  · cases h

/-- A token that is read is read again in front of any text that does not go on with it. -/
theorem next_cut (h : next c (cs ++ rest) = (token kind, rest)) (htext : kind.text.toList = c :: cs)
    (hrest : rest'.head?.all kind.stops = true) : next c (cs ++ rest') = (token kind, rest') := by
  have hpoint : c ≠ '.' → ¬(c.isDigit || (c == '.' && (cs ++ rest).head?.any Char.isDigit)) = true →
      ¬(c.isDigit || (c == '.' && (cs ++ rest').head?.any Char.isDigit)) = true := by
    intro hc
    simp [hc]
  revert h
  fun_cases next c (cs ++ rest) with
  | case1 | case2 | case3 | case4 | case5 => simp
  | case6 hnewline hline hblock hblank hword front back hspan =>
    intro h
    have hslash : c ≠ '/' := by
      rintro rfl
      exact absurd hword (by decide)
    rw [next, if_neg hnewline, if_neg (hslash ·.1), if_neg (hslash ·.1), if_neg hblank,
      if_pos hword]
    exact word_cut (by rwa [hspan]) hrest
  | case7 hnewline hline hblock hblank hword hnumber =>
    intro h
    rw [← List.cons_append] at h
    obtain ⟨-, hbehind, -⟩ := (number_eq_iff (List.cons_ne_nil c cs)).mp h
    have hslash : c ≠ '/' := by
      rintro rfl
      exact absurd hnumber (by simp [Char.isDigit])
    have hdigits : (c.isDigit || (c == '.' && (cs ++ rest').head?.any Char.isDigit)) = true := by
      cases cs with
      | cons d cs => exact hnumber
      | nil =>
        -- no digit is left behind a leading point
        rw [Bool.or_eq_true, Bool.and_eq_true] at hnumber ⊢
        refine hnumber.imp_right fun hpoint => ?_
        cases rest with
        | nil => exact absurd hpoint.2 (by decide)
        | cons d rest =>
          have hd := Recognizer.isWordChar_of_isDigit (c := d) hpoint.2
          simp [hd] at hbehind
    rw [next, if_neg hnewline, if_neg (hslash ·.1), if_neg (hslash ·.1), if_neg hblank,
      if_neg hword,
      if_pos hdigits, ← List.cons_append]
    exact number_cut (List.cons_ne_nil c cs) h hrest
  | case8 hnewline _ _ hblank hword hnumber hmark =>
    intro h
    have hslash : c ≠ '/' := by simp [hmark]
    rw [next, if_neg hnewline, if_neg (hslash ·.1), if_neg (hslash ·.1), if_neg hblank,
      if_neg hword,
      if_neg (hpoint (by simp [hmark]) hnumber), if_pos hmark]
    exact quoted_cut h
  | case9 hnewline _ _ hblank hword hnumber hstring hmark =>
    intro h
    have hslash : c ≠ '/' := by simp [hmark]
    rw [next, if_neg hnewline, if_neg (hslash ·.1), if_neg (hslash ·.1), if_neg hblank,
      if_neg hword,
      if_neg (hpoint (by simp [hmark]) hnumber), if_neg hstring, if_pos hmark]
    exact quoted_cut h
  | case10 hnewline _ _ hblank hword hnumber hstring hrune hmark =>
    intro h
    have hslash : c ≠ '/' := by simp [hmark]
    rw [next, if_neg hnewline, if_neg (hslash ·.1), if_neg (hslash ·.1), if_neg hblank,
      if_neg hword,
      if_neg (hpoint (by simp [hmark]) hnumber), if_neg hstring, if_neg hrune, if_pos hmark]
    exact rawString_cut h
  | case11 hnewline hline hblock hblank hword hnumber hstring hrune hraw =>
    intro h
    obtain ⟨p, rfl⟩ : ∃ p, kind = .punct p := by
      unfold mark at h
      split at h
      · exact ⟨_, (token.inj (Prod.mk.inj h).1).symm⟩
      · cases h
    have hslash : ∀ d, (d = '/' ∨ d = '*') → ¬(c = '/' ∧ (cs ++ rest).head? = some d) →
        ¬(c = '/' ∧ (cs ++ rest').head? = some d) := by
      cases cs with
      | cons => exact fun _ _ => id
      | nil =>
        rintro d hd - ⟨rfl, hhead⟩
        have hp : p = .slash := by
          revert htext
          cases p <;> decide
        rw [List.nil_append] at hhead
        rw [hhead, hp] at hrest
        rcases hd with rfl | rfl <;> exact absurd hrest (by decide)
    have hpoint : ¬(c.isDigit || (c == '.' && (cs ++ rest').head?.any Char.isDigit)) = true := by
      by_cases hc : c = '.'
      · subst hc
        cases cs with
        | cons => exact hnumber
        | nil =>
          have hp : p = .dot := by
            revert htext
            cases p <;> decide
          cases rest' with
          | nil => decide
          | cons d rest' =>
            simp only [hp, List.head?_cons, Option.all_some, TokenKind.stops,
              Bool.and_eq_true] at hrest
            simpa using hrest.2
      · exact hpoint hc hnumber
    rw [next, if_neg hnewline, if_neg (hslash _ (.inl rfl) hline),
      if_neg (hslash _ (.inr rfl) hblock),
      if_neg hblank, if_neg hword, if_neg hpoint, if_neg hstring, if_neg hrune, if_neg hraw]
    exact mark_cut h htext hrest

/-- The text of a token that is read, in front of the rest. -/
theorem exists_of_next (h : next c cs = (token kind, rest)) :
    ∃ front, kind.text.toList = c :: front ∧ cs = front ++ rest := by
  have happend := next_append c cs
  have hne := next_text_ne_nil c cs
  rw [h] at happend hne
  obtain ⟨d, front, htext⟩ := List.exists_cons_of_ne_nil hne
  dsimp only at happend
  rw [htext, List.cons_append, List.cons.injEq] at happend
  obtain ⟨rfl, rfl⟩ := happend
  exact ⟨front, htext, rfl⟩

/-- A token that is read from a text is plain. -/
theorem isPlain_of_next (h : next c cs = (token kind, rest)) : kind.isPlain = true := by
  obtain ⟨front, htext, rfl⟩ := exists_of_next h
  have hcut : next c (front ++ []) = (token kind, []) := next_cut h htext rfl
  exact TokenKind.isPlain_iff.mpr ⟨c, front, htext, List.append_nil front ▸ hcut⟩

/-- A token in front of a text that does not go on with it. -/
theorem next_of_isPlain (h : kind.isPlain = true) (hrest : rest.head?.all kind.stops = true) :
    ∃ c cs, kind.text.toList = c :: cs ∧ next c (cs ++ rest) = (token kind, rest) := by
  obtain ⟨c, cs, htext, hnext⟩ := TokenKind.isPlain_iff.mp h
  rw [← List.append_nil cs] at hnext
  exact ⟨c, cs, htext, next_cut hnext htext hrest⟩

end Lexeme

/-- A token that is read from its own text has one. -/
theorem TokenKind.isEmpty_text_of_isPlain {kind : TokenKind} (h : kind.isPlain = true) :
    kind.text.isEmpty = false := by
  obtain ⟨c, cs, htext, -⟩ := isPlain_iff.mp h
  rw [String.isEmpty_eq_false_iff]
  rintro hempty
  simp [hempty] at htext

/-! ### Words -/

/-- A name that is read as one is a word: letters and digits, of which a letter comes first, and it
is not reserved. -/
theorem TokenKind.exists_of_isPlain_ident {name : String} (h : (ident name).isPlain = true) :
    ∃ c cs, name.toList = c :: cs ∧ Text.isWordStart c = true ∧
    (∀ d ∈ cs, Text.isWordChar d = true) ∧
      Keyword.ofText? name = none := by
  obtain ⟨c, cs, htext, hnext⟩ := isPlain_iff.mp h
  revert hnext
  fun_cases Lexeme.next c cs with
  | case1 | case2 | case3 | case4 | case5 => simp
  | case6 _ _ _ _ hword front back hspan =>
    intro hnext
    rw [List.span_eq_takeWhile_dropWhile] at hspan
    cases hspan
    obtain ⟨hkind, hrest⟩ := Prod.mk.inj hnext
    refine ⟨c, cs, htext, hword, ?_, ?_⟩
    · intro d hd
      rw [← List.takeWhile_append_dropWhile (p := Text.isWordChar) (l := cs), hrest,
        List.append_nil] at hd
      exact List.mem_takeWhile_imp hd
    · have hof := Lexeme.token.inj hkind
      unfold ofWord at hof
      split at hof
      · cases hof
      · rename_i hnone
        cases hof
        exact hnone
  | case7 =>
    unfold Lexeme.number
    dsimp only
    split <;> simp
  | case8 | case9 =>
    unfold Lexeme.quoted
    split <;> simp
  | case10 =>
    unfold Lexeme.rawString
    dsimp only
    split <;> simp
  | case11 =>
    unfold Lexeme.mark
    split <;> simp

end ServiceSplit
