import Mathlib.Data.Finset.Card
import Mathlib.Data.Finset.Range
import Mathlib.Order.WellFounded
import ServiceSplit.Proofs.Dependency

/-!
# References in any order

The references that are to be looked at can be followed in any order. No order goes on for ever, and
they all come to the same: either one of them is refused, or the declarations taken are those that
the first references reach.
-/

namespace ServiceSplit

namespace PackageIndex

/-- The positions of the declarations that a name pulls in where a function named `root` needs
it. -/
def pulled (index : PackageIndex) (root name : String) : List Nat :=
  match index.entries.lookup name with
  | none | some .var => []
  | some (.func position) => if name = root then [] else [position]
  | some (.group position) => position :: index.methodsOf name

theorem InRange.lt_of_mem_pulled {index : PackageIndex} {count position : Nat} {root name : String}
    (h : index.InRange count) (hp : position ∈ index.pulled root name) : position < count := by
  unfold pulled at hp
  split at hp
  · cases hp
  · cases hp
  · rename_i q hentry
    split at hp
    · cases hp
    · obtain rfl := List.mem_singleton.mp hp
      exact h.entries name _ (Or.inl (Needed.mem_of_lookup hentry))
  · rename_i q hentry
    rcases List.mem_cons.mp hp with rfl | hp
    · exact h.entries name _ (Or.inr (Needed.mem_of_lookup hentry))
    · obtain ⟨m, hm, rfl⟩ := List.mem_map.mp hp
      exact h.methods m.1 m.2 (List.mem_filter.mp hm).1

end PackageIndex

namespace Needed

variable {index : PackageIndex} {decls : List Decl} {root : String} {start : List Reference}
  {st rest next : Needed} {r e : Reference} {o : Except Reference (List Nat)}

/-! ### Following one reference -/

/-- A sure reference to a variable. -/
def Refused (index : PackageIndex) (r : Reference) : Prop :=
  index.entries.lookup r.name = some .var ∧ r.hard = true

instance : Decidable (Refused index r) :=
  inferInstanceAs (Decidable (_ ∧ _))

/-- A reference is refused, or what it pulls in is taken. -/
theorem follow_eq (st : Needed) (r : Reference) :
    follow index decls root st r =
      if Refused index r then .error r
      else .ok ((index.pulled root r.name).foldl (take decls) st) := by
  by_cases hrefused : Refused index r
  · rw [if_pos hrefused]
    simp only [follow, hrefused.1, hrefused.2, if_true]
  rw [if_neg hrefused]
  cases hentry : index.entries.lookup r.name with
  | none => simp only [follow, PackageIndex.pulled, hentry, List.foldl_nil]
  | some entry =>
    cases entry with
    | var =>
      have hhard : r.hard = false := Bool.eq_false_iff.mpr fun h => hrefused ⟨hentry, h⟩
      simp only [follow, PackageIndex.pulled, hentry, hhard, List.foldl_nil]
      rfl
    | func position =>
      simp only [follow, PackageIndex.pulled, hentry]
      split <;> rfl
    | group position => simp only [follow, PackageIndex.pulled, hentry, PackageIndex.positions]

theorem refused_of_follow (h : follow index decls root st r = .error e) :
    e = r ∧ Refused index r := by
  rw [follow_eq] at h
  split at h
  · rename_i hrefused
    exact ⟨(Except.error.inj h).symm, hrefused⟩
  · cases h

theorem eq_foldl_of_follow (h : follow index decls root st r = .ok next) :
    next = (index.pulled root r.name).foldl (take decls) st := by
  rw [follow_eq] at h
  split at h
  · cases h
  · exact (Except.ok.inj h).symm

private theorem mem_included_take {position p : Nat} :
    p ∈ (st.take decls position).included ↔ p ∈ st.included ∨ p = position := by
  rw [take]
  split
  · rename_i h
    have hmem := List.contains_iff_mem.mp h
    exact ⟨Or.inl, fun h => h.elim id fun heq => heq ▸ hmem⟩
  · exact List.mem_cons.trans or_comm

theorem mem_included_foldl_take {ps : List Nat} {p : Nat} :
    p ∈ (ps.foldl (take decls) st).included ↔ p ∈ st.included ∨ p ∈ ps := by
  induction ps generalizing st with
  | nil => simp
  | cons q ps ih => rw [List.foldl_cons, ih, mem_included_take, List.mem_cons, or_assoc]

private theorem foldl_take_of_subset {ps : List Nat} (h : ps ⊆ st.included) :
    ps.foldl (take decls) st = st := by
  induction ps with
  | nil => rfl
  | cons p ps ih =>
    have hp : st.included.contains p := List.contains_iff_mem.mpr (h List.mem_cons_self)
    rw [List.foldl_cons, take, if_pos hp]
    exact ih fun q hq => h (List.mem_cons_of_mem p hq)

/-- What is resolved has been taken. -/
theorem Resolved.pulled_subset {included : List Nat} (h : Resolved index root included r) :
    index.pulled root r.name ⊆ included := by
  intro p hp
  unfold Resolved at h
  unfold PackageIndex.pulled at hp
  split at hp
  · cases hp
  · cases hp
  · rename_i position hentry
    simp only [hentry] at h
    split at hp
    · cases hp
    · rename_i hroot
      exact List.mem_singleton.mp hp ▸ h.resolve_left hroot
  · rename_i position hentry
    simp only [hentry] at h
    exact h p hp

/-- What is resolved is not refused. -/
theorem Resolved.not_refused {included : List Nat} (h : Resolved index root included r) :
    ¬Refused index r := by
  rintro ⟨hvar, hhard⟩
  simp only [Resolved, hvar, hhard] at h
  cases h

/-! ### Any order -/

/-- One of the references that are to be looked at is taken out; the others stay, in any order. -/
structure Picks (st : Needed) (r : Reference) (rest : Needed) : Prop where
  included : rest.included = st.included
  pending : st.pending.flatten.Perm (r :: rest.pending.flatten)

/-- One of the references that are to be looked at is followed. -/
def Follows (index : PackageIndex) (decls : List Decl) (root : String) (st next : Needed) : Prop :=
  ∃ r rest, st.Picks r rest ∧ follow index decls root rest r = .ok next

/-- One reference after the other is followed, in any order, until one is refused or none is left.
Then the positions that were taken are the outcome. -/
inductive Ends (index : PackageIndex) (decls : List Decl) (root : String) :
    Needed → Except Reference (List Nat) → Prop
  | done {st : Needed} (h : st.pending.flatten = []) : Ends index decls root st (.ok st.included)
  | refused {st rest : Needed} {r e : Reference} (hpick : st.Picks r rest)
      (h : follow index decls root rest r = .error e) : Ends index decls root st (.error e)
  | followed {st next : Needed} {o : Except Reference (List Nat)}
      (h : Follows index decls root st next)
      (hend : Ends index decls root next o) : Ends index decls root st o

/-- How many declarations have not been taken. -/
private def left (decls : List Decl) (st : Needed) : Nat :=
  (Finset.range decls.length \ st.included.toFinset).card

/-- A step takes a declaration that was not taken before, or it takes none and one reference less is
left. -/
private theorem Follows.lex (hindex : index.InRange decls.length)
    (h : Follows index decls root st next) :
    Prod.Lex (· < ·) (· < ·) (left decls next, next.pending.flatten.length)
      (left decls st, st.pending.flatten.length) := by
  obtain ⟨r, rest, hpick, hfollow⟩ := h
  have hincluded : left decls rest = left decls st := by rw [left, left, hpick.included]
  have hpending : rest.pending.flatten.length < st.pending.flatten.length := by
    rw [hpick.pending.length_eq]
    exact Nat.lt_succ_self _
  have hext := (extends_follow hindex hfollow).1
  obtain rfl := eq_foldl_of_follow hfollow
  rw [← hincluded]
  by_cases hsub : index.pulled root r.name ⊆ rest.included
  · rw [foldl_take_of_subset hsub]
    exact .right _ hpending
  · obtain ⟨p, hp, hfresh⟩ : ∃ p ∈ index.pulled root r.name, p ∉ rest.included := by
      by_contra hnone
      exact hsub fun p hp => by_contra fun hfresh => hnone ⟨p, hp, hfresh⟩
    refine .left _ _ (Finset.card_lt_card (Finset.ssubset_iff_of_subset ?_ |>.mpr ⟨p, ?_, ?_⟩))
    · exact Finset.sdiff_subset_sdiff subset_rfl
        fun q hq => List.mem_toFinset.mpr (hext.subset (List.mem_toFinset.mp hq))
    · simpa [hfresh] using hindex.lt_of_mem_pulled hp
    · simp [mem_included_foldl_take, hp]

theorem wellFounded_follows (hindex : index.InRange decls.length) :
    WellFounded fun next st => Follows index decls root st next :=
  Subrelation.wf (fun h => h.lex hindex)
    (InvImage.wf (fun st : Needed => (left decls st, st.pending.flatten.length))
      (Prod.lex Nat.lt_wfRel Nat.lt_wfRel).wf)

/-- No order goes on for ever. -/
theorem exists_not_follows (hindex : index.InRange decls.length) (run : Nat → Needed) :
    ∃ n, ¬Follows index decls root (run n) (run (n + 1)) :=
  @WellFounded.not_rel_apply_succ _ _ ⟨wellFounded_follows hindex⟩ run

/-! ### What comes out -/

/-- The positions of the declarations that the references `start` lead to, directly or through
others. -/
inductive Reached (index : PackageIndex) (decls : List Decl) (root : String)
    (start : List Reference) : Nat → Prop
  | direct {r : Reference} {p : Nat} (hr : r ∈ start) (h : p ∈ index.pulled root r.name) :
      Reached index decls root start p
  | through {r : Reference} {p q : Nat} (hp : Reached index decls root start p)
      (hr : r ∈ referencesAt decls p) (h : q ∈ index.pulled root r.name) :
      Reached index decls root start q

/-- The references met on the way: those of `start` and of what they lead to. -/
def Mentioned (index : PackageIndex) (decls : List Decl) (root : String) (start : List Reference)
    (r : Reference) : Prop :=
  r ∈ start ∨ ∃ p, Reached index decls root start p ∧ r ∈ referencesAt decls p

theorem Reached.lt_length (hindex : index.InRange decls.length) {p : Nat}
    (h : Reached index decls root start p) : p < decls.length := by
  cases h with
  | direct _ hp | through _ _ hp => exact hindex.lt_of_mem_pulled hp

theorem Mentioned.reached (h : Mentioned index decls root start r) {p : Nat}
    (hp : p ∈ index.pulled root r.name) : Reached index decls root start p := by
  rcases h with hr | ⟨q, hq, hr⟩
  · exact .direct hr hp
  · exact .through hq hr hp

/-- While references are followed, nothing is taken or looked at that is not reached, and every
reference of what was taken is looked at later or resolved. -/
structure Midway (index : PackageIndex) (decls : List Decl) (root : String)
    (start : List Reference) (st : Needed) : Prop where
  reached : ∀ p ∈ st.included, Reached index decls root start p
  mentioned : ∀ r ∈ st.pending.flatten, Mentioned index decls root start r
  covered : ∀ r, (r ∈ start ∨ ∃ p ∈ st.included, r ∈ referencesAt decls p) →
    r ∈ st.pending.flatten ∨ Resolved index root st.included r

namespace Midway

theorem initial (index : PackageIndex) (decls : List Decl) (root : String) (refs : List Reference) :
    Midway index decls root refs { pending := [refs] } where
  reached := List.forall_mem_nil _
  mentioned r hr := Or.inl (by simpa using hr)
  covered r hr := Or.inl (by simpa using hr)

theorem follows (hindex : index.InRange decls.length) (h : Midway index decls root start st)
    (hstep : Follows index decls root st next) : Midway index decls root start next := by
  obtain ⟨r, rest, hpick, hfollow⟩ := hstep
  obtain ⟨hext, hresolved⟩ := extends_follow hindex hfollow
  obtain ⟨ps, hincluded, hpending⟩ := hext.added
  have hr : Mentioned index decls root start r :=
    h.mentioned r (hpick.pending.mem_iff.mpr List.mem_cons_self)
  have hreached : ∀ p ∈ next.included, Reached index decls root start p := by
    intro p hp
    rw [eq_foldl_of_follow hfollow, mem_included_foldl_take, hpick.included] at hp
    exact hp.elim (h.reached p) hr.reached
  have hflatten : ∀ s, s ∈ next.pending.flatten ↔
      (∃ p ∈ ps, s ∈ referencesAt decls p) ∨ s ∈ rest.pending.flatten := by
    intro s
    rw [hpending, List.flatten_append, List.mem_append, ← List.flatMap_def, List.mem_flatMap]
  refine ⟨hreached, fun s hs => ?_, fun s hs => ?_⟩
  · rcases (hflatten s).mp hs with ⟨p, hp, hs⟩ | hs
    · exact Or.inr ⟨p, hreached p (hincluded ▸ List.mem_append_left _ hp), hs⟩
    · exact h.mentioned s (hpick.pending.mem_iff.mpr (List.mem_cons_of_mem r hs))
  · -- a reference of a declaration taken by this step is still to be looked at
    have hold : (s ∈ start ∨ ∃ p ∈ st.included, s ∈ referencesAt decls p) ∨
        ∃ p ∈ ps, s ∈ referencesAt decls p := by
      rw [hincluded, hpick.included] at hs
      rcases hs with hs | ⟨p, hp, hs⟩
      · exact Or.inl (Or.inl hs)
      · rcases List.mem_append.mp hp with hp | hp
        · exact Or.inr ⟨p, hp, hs⟩
        · exact Or.inl (Or.inr ⟨p, hp, hs⟩)
    rcases hold with hold | hnew
    · rcases h.covered s hold with hlater | hdone
      · rcases List.mem_cons.mp (hpick.pending.mem_iff.mp hlater) with rfl | hlater
        · exact Or.inr hresolved
        · exact Or.inl ((hflatten s).mpr (Or.inr hlater))
      · exact Or.inr (hdone.mono (hpick.included ▸ hext.subset))
    · exact Or.inl ((hflatten s).mpr (Or.inl hnew))

/-- When nothing is left to be looked at, exactly what is reached has been taken. -/
theorem mem_included_iff (h : Midway index decls root start st) (hdone : st.pending.flatten = [])
    {p : Nat} : p ∈ st.included ↔ Reached index decls root start p := by
  refine ⟨h.reached p, fun hp => ?_⟩
  have hresolved : ∀ r, (r ∈ start ∨ ∃ p ∈ st.included, r ∈ referencesAt decls p) →
      Resolved index root st.included r :=
    fun r hr => (h.covered r hr).resolve_left (hdone ▸ List.not_mem_nil)
  induction hp with
  | direct hr hp => exact (hresolved _ (Or.inl hr)).pulled_subset hp
  | through _ hr hq ih => exact (hresolved _ (Or.inr ⟨_, ih, hr⟩)).pulled_subset hq

/-- When nothing is left to be looked at, no reference was to be refused. -/
theorem not_refused (h : Midway index decls root start st) (hdone : st.pending.flatten = [])
    (hr : Mentioned index decls root start r) : ¬Refused index r := by
  refine ((h.covered r ?_).resolve_left (hdone ▸ List.not_mem_nil)).not_refused
  exact hr.imp id fun ⟨p, hp, hr⟩ => ⟨p, (h.mem_included_iff hdone).mpr hp, hr⟩

end Midway

/-- What the references `start` come to: one that is met on the way is refused, or none is to be and
exactly the declarations are taken that are reached. -/
def Settles (index : PackageIndex) (decls : List Decl) (root : String) (start : List Reference) :
    Except Reference (List Nat) → Prop
  | .error e => Mentioned index decls root start e ∧ Refused index e
  | .ok included => (∀ p, p ∈ included ↔ Reached index decls root start p) ∧
      ∀ r, Mentioned index decls root start r → ¬Refused index r

/-- Every order comes to the same. -/
theorem Ends.settles (hindex : index.InRange decls.length) (h : Ends index decls root st o)
    (hst : Midway index decls root start st) : Settles index decls root start o := by
  induction h with
  | done hdone => exact ⟨fun p => hst.mem_included_iff hdone, fun r => hst.not_refused hdone⟩
  | refused hpick herror =>
    obtain ⟨rfl, hrefused⟩ := refused_of_follow herror
    exact ⟨hst.mentioned _ (hpick.pending.mem_iff.mpr List.mem_cons_self), hrefused⟩
  | followed hstep _ ih => exact ih (hst.follows hindex hstep)

/-! ### The order of the rounds -/

/-- More lists of references that are to be looked at in the end. -/
private def later (st : Needed) (refs : List (List Reference)) : Needed :=
  { st with pending := st.pending ++ refs }

private theorem take_later (refs : List (List Reference)) (position : Nat) :
    (st.later refs).take decls position = (st.take decls position).later refs := by
  by_cases h : st.included.contains position
  · rw [take, take, if_pos h]
    exact if_pos h
  · rw [take, take, if_neg h]
    exact if_neg h

private theorem follow_later (refs : List (List Reference))
    (h : follow index decls root st r = .ok next) :
    follow index decls root (st.later refs) r = .ok (next.later refs) := by
  rw [follow_eq] at h ⊢
  split at h
  · cases h
  · rename_i hrefused
    obtain rfl := Except.ok.inj h
    rw [if_neg hrefused]
    congr 1
    exact List.foldl_hom (fun st : Needed => st.later refs) fun st p => take_later refs p

/-- Where and in which order the references stand does not matter. -/
private theorem Ends.of_perm (h : Ends index decls root st o) {st' : Needed}
    (hincluded : st'.included = st.included)
    (hpending : st'.pending.flatten.Perm st.pending.flatten) : Ends index decls root st' o := by
  cases h with
  | done hdone =>
    rw [← hincluded]
    exact .done (List.perm_nil.mp (hdone ▸ hpending))
  | refused hpick herror =>
    exact .refused ⟨hpick.included.trans hincluded.symm, hpending.trans hpick.pending⟩ herror
  | followed hstep hend =>
    obtain ⟨r, rest, hpick, hfollow⟩ := hstep
    have hpick' : st'.Picks r rest :=
      ⟨hpick.included.trans hincluded.symm, hpending.trans hpick.pending⟩
    exact .followed ⟨r, rest, hpick', hfollow⟩ hend

/-- The references of one declaration are followed first. -/
private theorem ends_foldlM (st : Needed) {refs : List Reference} {st' : Needed}
    (hincluded : st'.included = st.included)
    (hpending : st'.pending.flatten.Perm (refs ++ st.pending.flatten))
    (h : match refs.foldlM (follow index decls root) st with
      | .error e => o = .error e
      | .ok next => Ends index decls root next o) : Ends index decls root st' o := by
  induction refs generalizing st st' with
  | nil => exact Ends.of_perm h hincluded hpending
  | cons r refs ih =>
    rw [List.foldlM_cons] at h
    have hpick : st'.Picks r (st.later [refs]) := by
      refine ⟨hincluded.symm, hpending.trans (List.Perm.cons r ?_)⟩
      simpa [later] using List.perm_append_comm
    cases hfollow : follow index decls root st r with
    | error e =>
      rw [hfollow] at h
      obtain rfl : o = .error e := h
      refine .refused hpick ?_
      rw [follow_eq] at hfollow ⊢
      split at hfollow
      · rename_i hrefused
        rwa [if_pos hrefused]
      · cases hfollow
    | ok next =>
      rw [hfollow] at h
      refine .followed ⟨r, _, hpick, follow_later [refs] hfollow⟩  (ih next rfl ?_ h)
      simpa [later] using List.perm_append_comm

/-- The rounds are one of the orders, and there are enough of them. -/
theorem ends_close (hindex : index.InRange decls.length) {rounds : Nat}
    (h : Closing index decls root start st)
    (hrounds : st.pending.length + (decls.length - st.included.length) ≤ rounds) :
    Ends index decls root st ((close index decls root rounds st).map included) := by
  induction rounds generalizing st with
  | zero =>
    have hnone : st.pending = [] := List.eq_nil_of_length_eq_zero (by omega)
    exact .done (by rw [hnone, List.flatten_nil])
  | succ rounds ih =>
    rw [close]
    cases hpending : st.pending with
    | nil => exact .done (by rw [hpending, List.flatten_nil])
    | cons refs rest =>
      refine ends_foldlM { st with pending := rest } rfl (by rw [hpending]; rfl) ?_
      cases hround : refs.foldlM (follow index decls root) { st with pending := rest } with
      | error e => simp only [hround]; rfl
      | ok next =>
        obtain ⟨hnext, hcount⟩ := h.round hindex hpending hround
        simp only [hround]
        exact ih hnext (by omega)

end Needed

end ServiceSplit
