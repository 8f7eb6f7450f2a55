import Mathlib.Data.List.Nodup
import ServiceSplit.Sends

/-!
# Second sends

The sends of a path in their order, and the first one of them on a channel that has been sent on
before.
-/

namespace ServiceSplit.Sends

/-- A send on a channel, at a place. -/
abbrev Send :=
  String × Span

/-- The first send of a path on a channel that has been sent on before, where the channels in `sent`
have been sent on at the start. -/
def secondSend? (sent : List String) : List Send → Option ExtraSend
  | [] => none
  | (c, sp) :: t => if c ∈ sent then some ⟨c, sp⟩ else secondSend? (c :: sent) t

@[simp]
theorem secondSend?_nil_path (sent : List String) : secondSend? sent [] = none := rfl

/-- Only which channels have been sent on matters. -/
theorem secondSend?_congr {sent sent' : List String} (h : ∀ c, c ∈ sent ↔ c ∈ sent')
    (t : List Send) : secondSend? sent t = secondSend? sent' t := by
  induction t generalizing sent sent' with
  | nil => rfl
  | cons a t ih =>
    obtain ⟨c, sp⟩ := a
    have hc : ∀ d, d ∈ c :: sent ↔ d ∈ c :: sent' := by
      intro d
      rw [List.mem_cons, List.mem_cons, h d]
    simp only [secondSend?, h c, ih hc]

/-- The second send of a path in two parts. -/
theorem secondSend?_append (sent : List String) (t u : List Send) :
    secondSend? sent (t ++ u) =
      (secondSend? sent t).or (secondSend? (sent ++ t.map Prod.fst) u) := by
  induction t generalizing sent with
  | nil => simp
  | cons a t ih =>
    obtain ⟨c, sp⟩ := a
    by_cases hc : c ∈ sent
    · simp only [List.cons_append, secondSend?, hc, ↓reduceIte, Option.some_or]
    · simp only [List.cons_append, secondSend?, hc, ↓reduceIte, ih, List.map_cons]
      congr 1
      apply secondSend?_congr
      intro d
      simp only [List.mem_append, List.mem_cons]
      tauto

/-- Without a second send, the channels of a path differ from each other and from those sent on at
the start. -/
theorem secondSend?_eq_none_iff {sent : List String} {t : List Send} :
    secondSend? sent t = none ↔
      (t.map Prod.fst).Nodup ∧ ∀ c ∈ t.map Prod.fst, c ∉ sent := by
  induction t generalizing sent with
  | nil => simp
  | cons a t ih =>
    obtain ⟨c, sp⟩ := a
    by_cases hc : c ∈ sent
    · simp [secondSend?, hc]
    · simp only [secondSend?, hc, ↓reduceIte, ih, List.map_cons, List.nodup_cons, List.mem_cons,
        forall_eq_or_imp, not_false_eq_true, true_and, not_or]
      constructor
      · rintro ⟨hn, h⟩
        exact ⟨⟨fun hm => (h c hm).1 rfl, hn⟩, fun d hd => (h d hd).2⟩
      · rintro ⟨⟨hm, hn⟩, h⟩
        exact ⟨hn, fun d hd => ⟨fun hdc => hm (hdc ▸ hd), h d hd⟩⟩

/-- What stands before a second send. -/
theorem exists_of_secondSend? {sent : List String} {t : List Send} {e : ExtraSend}
    (h : secondSend? sent t = some e) :
    ∃ u v, t = u ++ (e.channel, e.span) :: v ∧ secondSend? sent u = none ∧
      (e.channel ∈ sent ∨ e.channel ∈ u.map Prod.fst) := by
  induction t generalizing sent with
  | nil => simp at h
  | cons a t ih =>
    obtain ⟨c, sp⟩ := a
    simp only [secondSend?] at h
    split_ifs at h with hc
    · cases h
      exact ⟨[], t, rfl, rfl, Or.inl hc⟩
    · obtain ⟨u, v, rfl, hu, he⟩ := ih h
      refine ⟨(c, sp) :: u, v, rfl, ?_, ?_⟩
      · simpa only [secondSend?, if_neg hc] using hu
      · rcases he with he | he
        · rcases List.mem_cons.mp he with he | he
          · exact Or.inr (he ▸ List.mem_cons_self)
          · exact Or.inl he
        · exact Or.inr (List.mem_cons_of_mem c he)

/-- A path without a second send sends at most once on each channel. -/
theorem secondSend?_nil_eq_none_iff {t : List Send} :
    secondSend? [] t = none ↔ (t.map Prod.fst).Nodup := by
  simp [secondSend?_eq_none_iff]

/-- Up to the second send of a path there is one send on its channel. -/
theorem exists_of_secondSend?_nil {t : List Send} {e : ExtraSend}
    (h : secondSend? [] t = some e) :
    ∃ u v, t = u ++ (e.channel, e.span) :: v ∧ (u.map Prod.fst).count e.channel = 1 := by
  obtain ⟨u, v, rfl, hu, he⟩ := exists_of_secondSend? h
  have hmem : e.channel ∈ u.map Prod.fst := he.resolve_left List.not_mem_nil
  exact ⟨u, v, rfl, List.count_eq_one_of_mem (secondSend?_nil_eq_none_iff.mp hu) hmem⟩

end ServiceSplit.Sends
