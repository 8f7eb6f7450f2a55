import ServiceSplit.Proofs.Paths
import ServiceSplit.Proofs.Sends.Second

/-!
# Following paths

A walk knows of all paths that meet at a point only on which channels one of them has sent. This
file says what such a path stands for, and what a walk has to find out about the paths through a
part: it fails at a second send of one of them, and otherwise none of them has a second send, and
the walk knows where they leave the part.
-/

namespace ServiceSplit.Sends

/-! ### What is known of paths -/

/-- Paths that reach a point, each with the channels it has sent on. -/
abbrev Reached :=
  List String → Prop

/-- The paths of `C` that go on through a part and leave it by `x`. -/
def extend (C : Reached) (R : Runs Send) (x : Exit) : Reached := fun s =>
  ∃ s₀ t, C s₀ ∧ R t x ∧ s = s₀ ++ t.map Prod.fst

/-- The paths `ps` that a walk has describe the paths of `C`: one of them is not over if there is a
path in `C`, and has sent on a channel if a path in `C` has. -/
structure Covers (ps : List Path) (C : Reached) : Prop where
  live : (∃ p ∈ ps, p.ended = false) ↔ ∃ s, C s
  sent : ∀ c, (∃ p ∈ ps, p.ended = false ∧ c ∈ p.sent) ↔ ∃ s, C s ∧ c ∈ s

namespace Covers

variable {ps qs : List Path} {C D : Reached} {p : Path}

theorem nil (hC : ∀ s, ¬C s) : Covers [] C where
  live := by simp [hC]
  sent := by simp [hC]

theorem append (hp : Covers ps C) (hq : Covers qs D) :
    Covers (ps ++ qs) fun s => C s ∨ D s where
  live := by
    simp only [List.mem_append, or_and_right, exists_or, hp.live, hq.live]
  sent c := by
    simp only [List.mem_append, or_and_right, exists_or, hp.sent, hq.sent]

theorem of_iff (hp : Covers ps C) (h : ∀ s, C s ↔ D s) : Covers ps D := by
  have hCD : C = D := funext fun s => propext (h s)
  exact hCD ▸ hp

/-- Paths that another list describes already add nothing. -/
theorem append_of_subset (hp : Covers ps C) (hq : Covers qs D) (h : ∀ s, D s → C s) :
    Covers (ps ++ qs) C :=
  (hp.append hq).of_iff fun s => or_iff_left_of_imp (h s)

theorem singleton_live (h : Covers [p] C) : p.ended = false ↔ ∃ s, C s := by
  rw [← h.live]
  simp

theorem mem_sent (h : Covers [p] C) {s : List String} (hs : C s) {c : String} (hc : c ∈ s) :
    c ∈ p.sent := by
  obtain ⟨q, hq, -, hcq⟩ := (h.sent c).mpr ⟨s, hs, hc⟩
  rwa [List.mem_singleton.mp hq] at hcq

theorem exists_of_mem_sent (h : Covers [p] C) (hp : p.ended = false) {c : String}
    (hc : c ∈ p.sent) : ∃ s, C s ∧ c ∈ s :=
  (h.sent c).mp ⟨p, List.mem_singleton_self p, hp, hc⟩

theorem of_ended (hp : p.ended = true) (hC : ∀ s, ¬C s) : Covers [p] C where
  live := by simp [hp, hC]
  sent := by simp [hp, hC]

theorem not_of_ended (h : Covers [p] C) (hp : p.ended = true) (s : List String) : ¬C s := by
  intro hs
  have hlive := h.singleton_live.mpr ⟨s, hs⟩
  rw [hp] at hlive
  cases hlive

end Covers

private theorem foldl_add_ended (ps : List Path) (p : Path) :
    (ps.foldl Path.add p).ended = p.ended := by
  induction ps generalizing p with
  | nil => rfl
  | cons q ps ih =>
    rw [List.foldl_cons, ih]
    rfl

private theorem mem_foldl_add_sent (ps : List Path) (p : Path) (c : String) :
    c ∈ (ps.foldl Path.add p).sent ↔ ∃ q ∈ p :: ps, c ∈ q.sent := by
  induction ps generalizing p with
  | nil => simp
  | cons q ps ih =>
    have hadd : c ∈ (p.add q).sent ↔ c ∈ p.sent ∨ c ∈ q.sent := by
      by_cases hc : c ∈ p.sent <;> simp [Path.add, hc]
    rw [List.foldl_cons, ih]
    simp only [List.mem_cons, exists_eq_or_imp, hadd, or_assoc]

/-- Where paths meet, what is known of them is kept. -/
theorem Covers.join {ps : List Path} {C : Reached} (h : Covers ps C) :
    Covers [Path.join ps] C := by
  have hfilter : ∀ q, q ∈ ps.filter (!·.ended) ↔ q ∈ ps ∧ q.ended = false := by simp
  cases hps : ps.filter (!·.ended) with
  | nil =>
    rw [hps] at hfilter
    have hnone : ∀ s, ¬C s := by
      intro s hs
      obtain ⟨q, hq, hlive⟩ := h.live.mpr ⟨s, hs⟩
      exact List.not_mem_nil ((hfilter q).mpr ⟨hq, hlive⟩)
    have hjoin : Path.join ps = Path.closed := by rw [Path.join, hps]
    rw [hjoin]
    exact .of_ended rfl hnone
  | cons p live =>
    rw [hps] at hfilter
    have hjoin : Path.join ps = live.foldl Path.add p := by rw [Path.join, hps]
    have hp : p.ended = false := ((hfilter p).mp List.mem_cons_self).2
    have hended : (Path.join ps).ended = false := by rw [hjoin, foldl_add_ended, hp]
    refine ⟨?_, fun c => ?_⟩
    · rw [← h.live]
      simp only [List.mem_singleton, exists_eq_left, hended, true_iff]
      exact ⟨p, (hfilter p).mp List.mem_cons_self⟩
    · rw [← h.sent c]
      simp only [List.mem_singleton, exists_eq_left, hended, true_and]
      rw [hjoin, mem_foldl_add_sent]
      constructor
      · rintro ⟨q, hq, hc⟩
        obtain ⟨hmem, hlive⟩ := (hfilter q).mp hq
        exact ⟨q, hmem, hlive, hc⟩
      · rintro ⟨q, hmem, hlive, hc⟩
        exact ⟨q, (hfilter q).mpr ⟨hmem, hlive⟩, hc⟩

/-! ### Walks -/

section Spec

variable {α β : Type} {m : Walk α} {bad bad' : ExtraSend → Prop} {good : α → List Jump → Prop}

/-- A walk that fails does so at a second send that is `bad`; otherwise what it gives, and the jumps
it adds, are `good`. -/
def Spec (m : Walk α) (bad : ExtraSend → Prop) (good : α → List Jump → Prop) : Prop :=
  ∀ log, match m log with
    | .error e => bad e
    | .ok (a, log') => ∃ js, log'.jumps = js ++ log.jumps ∧ good a js

namespace Spec

theorem pure {a : α} (h : good a []) : Spec (pure a) bad good :=
  fun _ => ⟨[], rfl, h⟩

theorem mono {good' : α → List Jump → Prop} (h : Spec m bad good) (hbad : ∀ e, bad e → bad' e)
    (hgood : ∀ a js, good a js → good' a js) : Spec m bad' good' := by
  intro log
  have hlog := h log
  cases hm : m log with
  | error e =>
    rw [hm] at hlog
    exact hbad e hlog
  | ok r =>
    rw [hm] at hlog
    obtain ⟨js, hjs, ha⟩ := hlog
    exact ⟨js, hjs, hgood r.1 js ha⟩

theorem bind {f : α → Walk β} {good' : β → List Jump → Prop} (h : Spec m bad good)
    (hf : ∀ a js, good a js → Spec (f a) bad fun b ks => good' b (ks ++ js)) :
    Spec (m >>= f) bad good' := by
  intro log
  have hlog := h log
  have happly : (m >>= f) log = match m log with
      | .error e => .error e
      | .ok (a, log') => f a log' := by
    simp only [Bind.bind, StateT.bind, Except.bind]
    cases m log <;> rfl
  rw [happly]
  cases hm : m log with
  | error e =>
    rw [hm] at hlog
    exact hlog
  | ok r =>
    rw [hm] at hlog
    obtain ⟨js, hjs, ha⟩ := hlog
    have hr := hf r.1 js ha r.2
    cases hfr : f r.1 r.2 with
    | error e =>
      simp only [hfr] at hr ⊢
      exact hr
    | ok r' =>
      simp only [hfr] at hr ⊢
      obtain ⟨ks, hks, hb⟩ := hr
      exact ⟨ks ++ js, by rw [hks, hjs, List.append_assoc], hb⟩

theorem bind_pure {f : α → β} {good' : β → List Jump → Prop} (h : Spec m bad good)
    (hf : ∀ a js, good a js → good' (f a) js) : Spec (m >>= fun a => Pure.pure (f a)) bad good' :=
  h.bind fun a js ha => .pure (by simpa using hf a js ha)

end Spec

end Spec

/-- The paths of the `break`s, or of the `continue`s, with a label. -/
def pathsOf (js : List Jump) (isContinue : Bool) (label : Option String) : List Path :=
  (js.filter fun j => j.isContinue == isContinue && j.label == label).map Jump.path

@[simp]
theorem pathsOf_append (js ks : List Jump) (isContinue : Bool) (label : Option String) :
    pathsOf (js ++ ks) isContinue label = pathsOf js isContinue label ++ pathsOf ks isContinue
    label := by
  simp [pathsOf]

/-- A second send `e` on a path that is in `C` and goes on through a part, or one of the sends that
are `dead`. -/
def Finds (dead : List Send) (C : Reached) (R : Runs Send) (e : ExtraSend) : Prop :=
  (∃ s t x, C s ∧ R t x ∧ secondSend? s t = some e) ∨ (e.channel, e.span) ∈ dead

/-- No path that is in `C` and goes on through a part has a second send there; those that leave it
by `out` are described by `q`, and those that leave it by a jump by `js`. -/
structure Knows (C : Reached) (R : Runs Send) (out : Exit) (q : Path) (js : List Jump) : Prop where
  clean : ∀ s t x, C s → R t x → secondSend? s t = none
  exit : Covers [q] (extend C R out)
  jumps : ∀ k l, Covers (pathsOf js k l) (extend C R (.jump k l))

/-- A walk from a point that the paths of `C` reach follows the paths through a part. -/
def Follows (dead : List Send) (C : Reached) (R : Runs Send) (out : Exit) (m : Walk Path) :
    Prop :=
  Spec m (Finds dead C R) (Knows C R out)

section

variable {dead : List Send} {C : Reached} {R S : Runs Send} {out : Exit} {m : Walk Path}
  {p : Path}

theorem extend_empty (hC : ∀ s, ¬C s) (x : Exit) (s : List String) : ¬extend C R x s := by
  rintro ⟨s₀, t, hs₀, -, -⟩
  exact hC s₀ hs₀

/-- Where no path comes, a walk has nothing to follow. -/
theorem Follows.of_empty (hC : ∀ s, ¬C s)
    (hm : Spec m (fun e => (e.channel, e.span) ∈ dead) fun q js => q.ended = true ∧ js = []) :
    Follows dead C R out m := by
  refine hm.mono (fun e he => Or.inr he) fun q js hq => ?_
  obtain ⟨hended, rfl⟩ := hq
  exact
    { clean := fun s _ _ hs => absurd hs (hC s)
      exit := .of_ended hended (extend_empty hC out)
      jumps := fun _ _ => .nil (extend_empty hC _) }

/-- The paths that leave a first part for a second one, and that by `x`. -/
theorem extend_andThen_iff {x : Exit} (s : List String) :
    extend C (R.andThen S) x s ↔
      (x ≠ .next ∧ extend C R x s) ∨ extend (extend C R .next) S x s := by
  constructor
  · rintro ⟨s₀, t, hs₀, ⟨hR, hx⟩ | ⟨u, v, hu, hv, rfl⟩, rfl⟩
    · exact Or.inl ⟨hx, s₀, t, hs₀, hR, rfl⟩
    · refine Or.inr ⟨s₀ ++ u.map Prod.fst, v, ⟨s₀, u, hs₀, hu, rfl⟩, hv, ?_⟩
      rw [List.map_append, List.append_assoc]
  · rintro (⟨hx, s₀, t, hs₀, hR, rfl⟩ | ⟨s₁, v, ⟨s₀, u, hs₀, hu, rfl⟩, hv, rfl⟩)
    · exact ⟨s₀, t, hs₀, Or.inl ⟨hR, hx⟩, rfl⟩
    · refine ⟨s₀, u ++ v, hs₀, Or.inr ⟨u, v, hu, hv, rfl⟩, ?_⟩
      rw [List.map_append, List.append_assoc]

/-- A second send on the paths through a part is one wherever these paths start those of another
part. -/
theorem Finds.of_starts {e : ExtraSend} (h : Finds dead C R e)
    (hRS : ∀ t x, R t x → ∃ u y, S (t ++ u) y) : Finds dead C S e := by
  rcases h with ⟨s, t, x, hs, ht, he⟩ | he
  · obtain ⟨u, y, hu⟩ := hRS t x ht
    refine Or.inl ⟨s, t ++ u, y, hs, hu, ?_⟩
    rw [secondSend?_append, he, Option.some_or]
  · exact Or.inr he

/-- A second send on paths that have come through a part without one. -/
theorem Finds.of_extend {Q : Runs Send} {x : Exit} {e : ExtraSend}
    (hclean : ∀ s t, C s → R t x → secondSend? s t = none) (h : Finds dead (extend C R x) S e)
    (hQ : ∀ t u y, R t x → S u y → ∃ v z, Q (t ++ u ++ v) z) : Finds dead C Q e := by
  rcases h with ⟨s', u, y, ⟨s, t, hs, ht, rfl⟩, hu, he⟩ | he
  · obtain ⟨v, z, hv⟩ := hQ t u y ht hu
    refine Or.inl ⟨s, t ++ u ++ v, z, hs, hv, ?_⟩
    rw [List.append_assoc, secondSend?_append, hclean s t hs ht, Option.none_or,
      secondSend?_append, he, Option.some_or]
  · exact Or.inr he

/-- Walks through one part after the other. -/
theorem Follows.andThen {f : Path → Walk Path} (hm : Follows dead C R .next m)
    (hf : ∀ q, Covers [q] (extend C R .next) → Follows dead (extend C R .next) S out (f q))
    (hS : S [] .cut) (hout : out ≠ .next → ∀ t, ¬R t out) :
    Follows dead C (R.andThen S) out (m >>= f) := by
  have hleft : ∀ t x, R t x → ∃ u y, R.andThen S (t ++ u) y := by
    intro t x ht
    by_cases hx : x = .next
    · exact ⟨[], .cut, Or.inr ⟨t, [], hx ▸ ht, hS, rfl⟩⟩
    · exact ⟨[], x, Or.inl ⟨by rwa [List.append_nil], hx⟩⟩
  refine (hm.mono (fun e he => he.of_starts hleft) fun _ _ h => h).bind fun q js hq => ?_
  refine (hf q hq.exit).mono (fun e he => ?_) fun r ks hr => ⟨?_, ?_, fun k l => ?_⟩
  · refine he.of_extend (fun s t => hq.clean s t .next) fun t u y ht hu => ⟨[], y, ?_⟩
    exact Or.inr ⟨t, u, ht, hu, List.append_nil _⟩
  · rintro s t x hs (⟨ht, -⟩ | ⟨u, v, hu, hv, rfl⟩)
    · exact hq.clean s t x hs ht
    · rw [secondSend?_append, hq.clean s u .next hs hu, Option.none_or]
      exact hr.clean _ v x ⟨s, u, hs, hu, rfl⟩ hv
  · refine hr.exit.of_iff fun s => ?_
    rw [extend_andThen_iff]
    refine ⟨Or.inr, ?_⟩
    rintro (⟨hx, s₀, t, -, ht, -⟩ | h)
    · exact absurd ht (hout hx t)
    · exact h
  · rw [pathsOf_append]
    refine ((hr.jumps k l).append (hq.jumps k l)).of_iff fun s => ?_
    rw [extend_andThen_iff, or_comm]
    simp only [ne_eq, reduceCtorEq, not_false_eq_true, true_and]

/-- The paths through either of two parts. -/
theorem extend_either_iff {x : Exit} (s : List String) :
    extend C (R.either S) x s ↔ extend C R x s ∨ extend C S x s := by
  constructor
  · rintro ⟨s₀, t, hs₀, ht | ht, rfl⟩
    · exact Or.inl ⟨s₀, t, hs₀, ht, rfl⟩
    · exact Or.inr ⟨s₀, t, hs₀, ht, rfl⟩
  · rintro (⟨s₀, t, hs₀, ht, rfl⟩ | ⟨s₀, t, hs₀, ht, rfl⟩)
    · exact ⟨s₀, t, hs₀, Or.inl ht, rfl⟩
    · exact ⟨s₀, t, hs₀, Or.inr ht, rfl⟩

/-- Walks through either of two parts. -/
theorem Follows.either {n : Walk Path} (hm : Follows dead C R out m)
    (hn : Follows dead C S out n) :
    Follows dead C (R.either S) out (do
      let yes ← m
      let no ← n
      return .join [yes, no]) := by
  refine (hm.mono (fun e he => ?_) fun _ _ h => h).bind fun q js hq => ?_
  · exact he.of_starts fun t x ht => ⟨[], x, Or.inl (by rwa [List.append_nil])⟩
  refine (hn.mono (fun e he => ?_) fun _ _ h => h).bind_pure fun r ks hr => ⟨?_, ?_, fun k l => ?_⟩
  · exact he.of_starts fun t x ht => ⟨[], x, Or.inr (by rwa [List.append_nil])⟩
  · rintro s t x hs (ht | ht)
    · exact hq.clean s t x hs ht
    · exact hr.clean s t x hs ht
  · exact ((hq.exit.append hr.exit).of_iff fun s => (extend_either_iff s).symm).join
  · rw [pathsOf_append]
    refine ((hr.jumps k l).append (hq.jumps k l)).of_iff fun s => ?_
    rw [extend_either_iff, or_comm]

/-! ### Steps -/

private theorem not_extend_step {shown : List Send} {x y : Exit} (hxy : y ≠ x) (hy : y ≠ .cut)
    (s : List String) : ¬extend C (Runs.step shown x) y s := by
  rintro ⟨s₀, t, -, ⟨-, h⟩ | ⟨-, h⟩, -⟩
  · exact hy h
  · exact hxy h

private theorem extend_step_iff {shown : List Send} {x : Exit} (hx : x ≠ .cut) (s : List String) :
    extend C (Runs.step shown x) x s ↔ ∃ s₀, C s₀ ∧ s = s₀ ++ shown.map Prod.fst := by
  constructor
  · rintro ⟨s₀, t, hs₀, ⟨-, h⟩ | ⟨rfl, -⟩, rfl⟩
    · exact absurd h hx
    · exact ⟨s₀, hs₀, rfl⟩
  · rintro ⟨s₀, hs₀, rfl⟩
    exact ⟨s₀, shown, hs₀, Or.inr ⟨rfl, rfl⟩, rfl⟩

private theorem Covers.step (hp : Covers [p] C) {x : Exit} (hx : x ≠ .cut) :
    Covers [p] (extend C (Runs.step [] x) x) :=
  hp.of_iff fun s => by simp [extend_step_iff hx]

private theorem clean_step {x : Exit} (s : List String) (t : List Send) (y : Exit) (_ : C s)
    (ht : Runs.step [] x t y) : secondSend? s t = none := by
  rcases ht with ⟨rfl, -⟩ | ⟨rfl, -⟩ <;> rfl

/-- A statement that shows nothing and does not jump. -/
theorem Follows.quiet (hp : Covers [p] C) (ends : Bool) :
    Follows dead C (.step [] (if ends then .finished else .next)) .next
      (pure (if ends then p.finish else p)) := by
  refine .pure ⟨clean_step, ?_, fun k l => .nil ?_⟩
  · cases ends with
    | true => exact .of_ended rfl (not_extend_step Exit.noConfusion Exit.noConfusion)
    | false => exact hp.step Exit.noConfusion
  · cases ends <;> exact not_extend_step Exit.noConfusion Exit.noConfusion

/-- A `fallthrough`. -/
theorem Follows.fall (hp : Covers [p] C) :
    Follows dead C (.step [] .fall) .fall (pure p) :=
  .pure
    { clean := clean_step
      exit := hp.step Exit.noConfusion
      jumps := fun _ _ => .nil (not_extend_step Exit.noConfusion Exit.noConfusion) }

/-- A `break` or `continue`. -/
theorem Follows.jump (hp : Covers [p] C) (isContinue : Bool) (label : Option Ident) :
    Follows dead C (.step [] (.jump isContinue (label.map Ident.name))) .next
      (jump isContinue label p) := by
  intro log
  refine ⟨[⟨isContinue, label.map Ident.name, p⟩], rfl, clean_step, ?_, fun k l => ?_⟩
  · exact .of_ended rfl (not_extend_step Exit.noConfusion Exit.noConfusion)
  · by_cases hkl : k = isContinue ∧ l = label.map Ident.name
    · obtain ⟨rfl, rfl⟩ := hkl
      have hpaths : pathsOf [⟨k, label.map Ident.name, p⟩] k (label.map Ident.name) = [p] := by
        simp [pathsOf]
      rw [hpaths]
      exact hp.step Exit.noConfusion
    · have hpaths : pathsOf [⟨isContinue, label.map Ident.name, p⟩] k l = [] := by
        simp only [pathsOf, List.map_eq_nil_iff, List.filter_eq_nil_iff, List.mem_singleton,
          forall_eq, Bool.and_eq_true, beq_iff_eq]
        rintro ⟨rfl, rfl⟩
        exact hkl ⟨rfl, rfl⟩
      rw [hpaths]
      refine .nil (not_extend_step (fun h => hkl ?_) Exit.noConfusion)
      cases h
      exact ⟨rfl, rfl⟩

/-- A send on a channel that is watched. -/
theorem Follows.record (hp : Covers [p] C) (hlive : p.ended = false) (channel : String)
    (span : Span) :
    Follows dead C (.step [(channel, span)] .next) .next (record channel span p) := by
  intro log
  by_cases hc : channel ∈ p.sent
  · have hrec : Sends.record channel span p log = .error ⟨channel, span⟩ := by
      simp only [Sends.record, List.contains_iff_mem.mpr hc, ↓reduceIte]
      rfl
    obtain ⟨s, hs, hcs⟩ := hp.exists_of_mem_sent hlive hc
    rw [hrec]
    refine Or.inl ⟨s, [(channel, span)], .next, hs, Or.inr ⟨rfl, rfl⟩, ?_⟩
    simp only [secondSend?, hcs, ↓reduceIte]
  · have hrec : Sends.record channel span p log =
        .ok ({ p with sent := channel :: p.sent },
          { log with seen := log.seen ++ [(channel, span)] }) := by
      simp only [Sends.record, List.contains_iff_mem, hc, ↓reduceIte]
      rfl
    rw [hrec]
    refine ⟨[], rfl, ?_, ?_, fun k l => .nil (not_extend_step Exit.noConfusion Exit.noConfusion)⟩
    · rintro s t x hs (⟨rfl, -⟩ | ⟨rfl, -⟩)
      · rfl
      · have hcs : channel ∉ s := fun h => hc (hp.mem_sent hs h)
        simp only [secondSend?, hcs, ↓reduceIte]
    · obtain ⟨s, hs⟩ := hp.singleton_live.mp hlive
      have hext : ∀ s, extend C (Runs.step [(channel, span)] .next) .next s ↔ _ :=
        extend_step_iff Exit.noConfusion
      refine ⟨?_, fun c => ?_⟩
      · simp only [List.mem_singleton, exists_eq_left, hlive, hext, true_iff]
        exact ⟨_, s, hs, rfl⟩
      · simp only [List.mem_singleton, exists_eq_left, hlive, true_and, hext]
        rw [List.mem_cons]
        constructor
        · rintro (rfl | hc)
          · exact ⟨_, ⟨s, hs, rfl⟩, by simp⟩
          · obtain ⟨s', hs', hcs'⟩ := hp.exists_of_mem_sent hlive hc
            exact ⟨_, ⟨s', hs', rfl⟩, List.mem_append_left _ hcs'⟩
        · rintro ⟨_, ⟨s', hs', rfl⟩, hc⟩
          rcases List.mem_append.mp hc with hc | hc
          · exact Or.inr (hp.mem_sent hs' hc)
          · exact Or.inl (List.mem_singleton.mp hc)

/-! ### Jumps that are caught -/

/-- What is known of the jumps with some labels. -/
theorem Covers.filter {js : List Jump} {E : Bool → Option String → Reached}
    (hjs : ∀ k l, Covers (pathsOf js k l) (E k l)) (f : Bool → Option String → Bool) :
    Covers ((js.filter fun j => f j.isContinue j.label).map Jump.path) fun s =>
      ∃ k l, f k l = true ∧ E k l s := by
  have hmem : ∀ (P : Path → Prop), (∃ q ∈ (js.filter fun j => f j.isContinue j.label).map Jump.path,
      P q) ↔ ∃ k l, f k l = true ∧ ∃ q ∈ pathsOf js k l, P q := by
    intro P
    simp only [pathsOf, List.mem_map, List.mem_filter, Bool.and_eq_true, beq_iff_eq]
    constructor
    · rintro ⟨q, ⟨j, ⟨hj, hf⟩, rfl⟩, hq⟩
      exact ⟨_, _, hf, _, ⟨j, ⟨hj, rfl, rfl⟩, rfl⟩, hq⟩
    · rintro ⟨k, l, hf, q, ⟨j, ⟨hj, rfl, rfl⟩, rfl⟩, hq⟩
      exact ⟨_, ⟨j, ⟨hj, hf⟩, rfl⟩, hq⟩
  refine ⟨?_, fun c => ?_⟩
  · rw [hmem]
    simp only [(hjs _ _).live]
    exact ⟨fun ⟨k, l, hf, s, hs⟩ => ⟨s, k, l, hf, hs⟩, fun ⟨s, k, l, hf, hs⟩ => ⟨k, l, hf, s, hs⟩⟩
  · rw [hmem]
    simp only [(hjs _ _).sent c]
    exact ⟨fun ⟨k, l, hf, s, hs, hc⟩ => ⟨s, ⟨k, l, hf, hs⟩, hc⟩,
      fun ⟨s, ⟨k, l, hf, hs⟩, hc⟩ => ⟨k, l, hf, s, hs, hc⟩⟩

/-- Whether a `break` or `continue` with a label leaves the target. -/
def Target.takes (target : Target) (isContinue : Bool) (label : Option String) : Bool :=
  target.catches ⟨isContinue, label, {}⟩

theorem Target.takes_break (label : Option String) (isLoop : Bool) (l : Option String) :
    Target.takes ⟨label, isLoop⟩ false l = (Exit.jump false l).leaves label := by
  cases l with
  | none => simp [takes, catches, Exit.leaves]
  | some l => exact BEq.comm

theorem Target.takes_continue (label : Option String) (l : Option String) :
    Target.takes ⟨label, true⟩ true l = (Exit.jump true l).stays label := by
  cases l with
  | none => simp [takes, catches, Exit.stays]
  | some l => exact BEq.comm

/-- What a walk through a part knows, with the jumps that leave a target on their own. -/
structure Left (C : Reached) (R : Runs Send) (target : Target) (r : Path × List Path × List Path)
    (js : List Jump) : Prop where
  clean : ∀ s t x, C s → R t x → secondSend? s t = none
  exit : Covers [r.1] (extend C R .next)
  breaks : Covers r.2.1 fun s => ∃ l, target.takes false l = true ∧ extend C R (.jump false l) s
  continues : Covers r.2.2 fun s => ∃ l, target.takes true l = true ∧ extend C R (.jump true l) s
  passing : ∀ k l, Covers (pathsOf js k l) fun s =>
    target.takes k l = false ∧ extend C R (.jump k l) s

theorem leaving_apply (target : Target) (part : Walk Path) (log : Log) :
    leaving target part log =
      match part { log with jumps := [] } with
      | .error e => .error e
      | .ok (p, log') => .ok
        ((p, ((log'.jumps.filter target.catches).filter (!·.isContinue)).map Jump.path,
          ((log'.jumps.filter target.catches).filter Jump.isContinue).map Jump.path),
          { log' with jumps := log'.jumps.filter (!target.catches ·) ++ log.jumps }) := by
  simp only [leaving, bind, StateT.bind, get, getThe, MonadStateOf.get, StateT.get, modify,
    modifyGet, MonadStateOf.modifyGet, StateT.modifyGet, pure, Except.pure, Except.bind,
    List.partition_eq_filter_filter]
  cases part { log with jumps := [] } with
  | error e => rfl
  | ok r => rfl

/-- A walk through a part that jumps can leave. -/
theorem Follows.leaving (h : Follows dead C R .next m) (target : Target) :
    Spec (leaving target m) (Finds dead C R) (Left C R target) := by
  intro log
  rw [leaving_apply]
  have hlog := h { log with jumps := [] }
  cases hm : m { log with jumps := [] } with
  | error e =>
    rw [hm] at hlog
    exact hlog
  | ok r =>
    rw [hm] at hlog
    obtain ⟨js, hjs, hr⟩ := hlog
    simp only [List.append_nil] at hjs
    refine ⟨_, rfl, hr.clean, hr.exit, ?_, ?_, fun k l => ?_⟩
    · have hbreaks := Covers.filter hr.jumps fun k l => !k && target.takes k l
      simp only [hjs, List.filter_filter]
      exact hbreaks.of_iff fun s => by simp
    · have hcontinues := Covers.filter hr.jumps fun k l => k && target.takes k l
      simp only [hjs, List.filter_filter]
      exact hcontinues.of_iff fun s => by simp
    · have hpassing := Covers.filter hr.jumps fun k' l' =>
        (k' == k && l' == l) && !target.takes k' l'
      rw [hjs, pathsOf, List.filter_filter]
      refine hpassing.of_iff fun s => ⟨?_, fun ⟨ht, hs⟩ => ⟨k, l, by simp [ht], hs⟩⟩
      rintro ⟨k', l', hf, hs⟩
      simp only [Bool.and_eq_true, beq_iff_eq, Bool.not_eq_true'] at hf
      obtain ⟨⟨rfl, rfl⟩, ht⟩ := hf
      exact ⟨ht, hs⟩

/-- A walk through a switch or select. -/
theorem Follows.choice {label : Option String} (h : Follows dead C R .next m)
    (hlabel : ∀ t l, label = some l → ¬R t (.jump true (some l))) :
    Follows dead C (R.breakable label) .next (choice label m) := by
  refine ((h.leaving ⟨label, false⟩).mono (fun e he => ?_) fun _ _ h => h).bind_pure
    fun r js hr => ⟨?_, ?_, fun k l => ?_⟩
  · refine he.of_starts fun t x ht => ⟨[], ?_⟩
    rw [List.append_nil]
    cases hx : x.leaves label with
    | false => exact ⟨x, Or.inl ⟨ht, hx⟩⟩
    | true => exact ⟨.next, Or.inr ⟨rfl, x, ht, hx⟩⟩
  · rintro s t x hs (⟨ht, -⟩ | ⟨-, y, ht, -⟩)
    · exact hr.clean s t x hs ht
    · exact hr.clean s t y hs ht
  · refine ((hr.exit.append hr.breaks).of_iff fun s => ?_).join
    constructor
    · rintro (⟨s₀, t, hs₀, ht, rfl⟩ | ⟨l, hl, s₀, t, hs₀, ht, rfl⟩)
      · exact ⟨s₀, t, hs₀, Or.inl ⟨ht, rfl⟩, rfl⟩
      · exact ⟨s₀, t, hs₀, Or.inr ⟨rfl, _, ht, Target.takes_break label false l ▸ hl⟩, rfl⟩
    · rintro ⟨s₀, t, hs₀, ⟨ht, -⟩ | ⟨-, y, ht, hy⟩, rfl⟩
      · exact Or.inl ⟨s₀, t, hs₀, ht, rfl⟩
      · cases y with
        | jump k l =>
          cases k with
          | false => exact Or.inr ⟨l, (Target.takes_break label false l).trans hy, s₀, t, hs₀,
              ht, rfl⟩
          | true => cases hy
        | _ => cases hy
  · refine (hr.passing k l).of_iff fun s => ⟨?_, ?_⟩
    · rintro ⟨hkl, s₀, t, hs₀, ht, rfl⟩
      refine ⟨s₀, t, hs₀, Or.inl ⟨ht, ?_⟩, rfl⟩
      cases k with
      | false => rwa [Target.takes_break] at hkl
      | true => rfl
    · rintro ⟨s₀, t, hs₀, ⟨ht, hx⟩ | ⟨hx, -⟩, rfl⟩
      · refine ⟨?_, s₀, t, hs₀, ht, rfl⟩
        cases k with
        | false => rwa [Target.takes_break]
        | true =>
          cases l with
          | none => rfl
          | some l => exact beq_eq_false_iff_ne.mpr fun h => hlabel t l h ht
      · cases hx

end

end ServiceSplit.Sends
