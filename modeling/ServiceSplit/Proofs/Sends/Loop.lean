import ServiceSplit.Proofs.Placement
import ServiceSplit.Proofs.Sends.Follow

/-!
# Following loops

A walk follows the body of a loop for two rounds. If it finds no second send in them, then no path
sends anything on its way from one round to the next: it would have sent it again in the second
round. Hence a path through any number of rounds has sent what it sends in its last one, and two
rounds show all second sends.
-/

namespace ServiceSplit.Sends

variable {dead : List Send} {C : Reached} {B P : Runs Send} {label : Option String}
  {mayStop : Bool} {body post : Path → Walk Path} {p : Path}

/-- The paths through the body of a loop that stay in the loop. -/
def staying (label : Option String) (B : Runs Send) : Runs Send := fun t x =>
  x = .next ∧ ∃ y, B t y ∧ y.stays label = true

/-- The paths of `C` at the end of the body of a loop, where those that stay in it meet. -/
abbrev ending (C : Reached) (label : Option String) (B : Runs Send) : Reached :=
  extend C (staying label B) .next

/-- The paths of `C` at the start of the next round of a loop. -/
abbrev nextRound (C : Reached) (label : Option String) (B P : Runs Send) : Reached :=
  extend (ending C label B) P .next

/-! ### One round -/

/-- What a walk through one round of a loop knows. -/
structure Rounded (C : Reached) (label : Option String) (B P : Runs Send) (r : Path × List Path)
    (js : List Jump) : Prop where
  clean : ∀ s t x, C s → B t x → secondSend? s t = none
  cleanPost : ∀ s t x, ending C label B s → P t x → secondSend? s t = none
  next : Covers [r.1] (nextRound C label B P)
  breaks : Covers r.2 fun s => ∃ l, (Exit.jump false l).leaves label = true ∧
    extend C B (.jump false l) s
  passing : ∀ k l, Covers (pathsOf js k l) fun s =>
    Target.takes ⟨label, true⟩ k l = false ∧ extend C B (.jump k l) s

/-- Every path through the body of a loop starts one through the loop. -/
private theorem rounds_of_body (hP : P [] .cut) {t : List Send} {x : Exit} (ht : B t x) :
    ∃ u y, Runs.Rounds label mayStop B P (t ++ u) y := by
  cases hl : x.leaves label with
  | true => exact ⟨[], .next, by simpa using .leave ht hl⟩
  | false =>
    cases hs : x.stays label with
    | true => exact ⟨[], .cut, .halt ht hs hP Exit.noConfusion⟩
    | false => exact ⟨[], x, by simpa using .pass ht hl hs⟩

private theorem rounds_of_post {t u : List Send} {x y : Exit} (ht : staying label B t x)
    (hu : P u y) : ∃ v z, Runs.Rounds label mayStop B P (t ++ u ++ v) z := by
  obtain ⟨-, x', ht, hs⟩ := ht
  by_cases hy : y = .next
  · exact ⟨[], .cut, .again ht hs (hy ▸ hu) .cut⟩
  · exact ⟨[], y, by simpa using .halt ht hs hu hy⟩

/-- A walk through one round finds only second sends of the loop. -/
theorem Follows.round (hbody : Follows dead C B .next (body p))
    (hpost : ∀ C q, Covers [q] C → q.ended = false → Follows dead C P .next (post q))
    (hcut : P [] .cut) (hjump : ∀ t k l, ¬P t (.jump k l)) :
    Spec (round label body post p) (Finds dead C (Runs.Rounds label mayStop B P))
      (Rounded C label B P) := by
  refine ((hbody.leaving ⟨label, true⟩).mono (fun e he => ?_) fun _ _ h => h).bind
    fun r js hr => ?_
  · exact he.of_starts fun t x ht => rounds_of_body hcut ht
  obtain ⟨q, breaks, continues⟩ := r
  have hend : Covers [Path.join (q :: continues)] (ending C label B) := by
    refine ((hr.exit.append hr.continues).of_iff fun s => ⟨?_, ?_⟩).join
    · rintro (⟨s₀, t, hs₀, ht, rfl⟩ | ⟨l, hl, s₀, t, hs₀, ht, rfl⟩)
      · exact ⟨s₀, t, hs₀, ⟨rfl, _, ht, rfl⟩, rfl⟩
      · exact ⟨s₀, t, hs₀, ⟨rfl, _, ht, Target.takes_continue label l ▸ hl⟩, rfl⟩
    · rintro ⟨s₀, t, hs₀, ⟨-, y, ht, hy⟩, rfl⟩
      cases y with
      | next => exact Or.inl ⟨s₀, t, hs₀, ht, rfl⟩
      | jump k l =>
        cases k with
        | true => exact Or.inr ⟨l, (Target.takes_continue label l).trans hy, s₀, t, hs₀, ht, rfl⟩
        | false => cases hy
      | _ => cases hy
  have hbreaks : Covers breaks fun s => ∃ l, (Exit.jump false l).leaves label = true ∧
      extend C B (.jump false l) s := by
    simpa only [Target.takes_break] using hr.breaks
  dsimp only
  by_cases hended : (Path.join (q :: continues)).ended = true
  · have hnone := hend.not_of_ended hended
    rw [if_pos hended, pure_bind]
    exact .pure
      { clean := hr.clean
        cleanPost := fun s _ _ hs => absurd hs (hnone s)
        next := .of_ended hended (extend_empty hnone .next)
        breaks := hbreaks
        passing := hr.passing }
  · rw [if_neg hended]
    refine ((hpost _ _ hend (eq_false_of_ne_true hended)).mono (fun e he => ?_)
      fun _ _ h => h).bind_pure fun r ks hq => ?_
    · exact he.of_extend (fun s t hs ⟨_, y, ht, _⟩ => hr.clean s t y hs ht)
        fun t u y => rounds_of_post
    · refine ⟨hr.clean, hq.clean, hq.exit, hbreaks, fun k l => ?_⟩
      rw [pathsOf_append]
      refine ((hq.jumps k l).append (hr.passing k l)).of_iff fun s => or_iff_right ?_
      rintro ⟨_, t, -, ht, -⟩
      exact hjump t k l ht

/-! ### Idle loops -/

/-- No path sends anything from the start of one round to the start of the next. -/
def Idle (label : Option String) (B P : Runs Send) : Prop :=
  ∀ u v y, B u y → y.stays label = true → P v .next → u = [] ∧ v = []

/-- A path through an idle loop is one through its last round. -/
theorem Idle.last_round (h : Idle label B P) {t : List Send} {x : Exit}
    (ht : Runs.Rounds label mayStop B P t x) :
    (t = [] ∧ x = .cut) ∨ (mayStop = true ∧ t = [] ∧ x = .next) ∨
      (x = .next ∧ ∃ y, B t y ∧ y.leaves label = true) ∨
      (B t x ∧ x.leaves label = false ∧ x.stays label = false) ∨
      (x ≠ .next ∧ (staying label B).andThen P t x) := by
  induction ht with
  | cut => exact Or.inl ⟨rfl, rfl⟩
  | stop h => exact Or.inr (Or.inl ⟨h, rfl, rfl⟩)
  | leave hb hx => exact Or.inr (Or.inr (Or.inl ⟨rfl, _, hb, hx⟩))
  | pass hb hl hs => exact Or.inr (Or.inr (Or.inr (Or.inl ⟨hb, hl, hs⟩)))
  | halt hb hs hp hy =>
    exact Or.inr (Or.inr (Or.inr (Or.inr ⟨hy, Or.inr ⟨_, _, ⟨rfl, _, hb, hs⟩, hp, rfl⟩⟩)))
  | again hb hs hp _ ih =>
    obtain ⟨rfl, rfl⟩ := h _ _ _ hb hs hp
    simpa only [List.nil_append] using ih

/-- An idle loop leaves paths as they are. -/
theorem Idle.nextRound_subset (h : Idle label B P) {s : List String}
    (hs : nextRound C label B P s) : C s := by
  obtain ⟨_, v, ⟨s₀, u, hs₀, ⟨-, y, hu, hy⟩, rfl⟩, hv, rfl⟩ := hs
  obtain ⟨rfl, rfl⟩ := h u v y hu hy hv
  simpa using hs₀

private theorem eq_nil_of_sent {s : List String} {t : List Send} (hs : ∀ c ∈ t.map Prod.fst, c ∈ s)
    (h : secondSend? s t = none) : t = [] := by
  cases t with
  | nil => rfl
  | cons a t =>
    have hmem : a.1 ∈ s := hs a.1 List.mem_cons_self
    exact absurd hmem ((secondSend?_eq_none_iff.mp h).2 a.1 List.mem_cons_self)

/-- Without a second send in two rounds, a loop is idle. -/
theorem Rounded.idle {r : Path × List Path} {js : List Jump} (hC : ∃ s, C s)
    (h : Rounded (nextRound C label B P) label B P r js) : Idle label B P := by
  intro u v y hu hy hv
  obtain ⟨s, hs⟩ := hC
  have hend : ending C label B (s ++ u.map Prod.fst) := ⟨s, u, hs, ⟨rfl, y, hu, hy⟩, rfl⟩
  have hnext : nextRound C label B P (s ++ u.map Prod.fst ++ v.map Prod.fst) :=
    ⟨_, v, hend, hv, rfl⟩
  constructor
  · exact eq_nil_of_sent (fun c hc => by simp [hc]) (h.clean _ u y hnext hu)
  · refine eq_nil_of_sent (fun c hc => ?_)
      (h.cleanPost _ v .next ⟨_, u, hnext, ⟨rfl, y, hu, hy⟩, rfl⟩ hv)
    exact List.mem_append_left _ (List.mem_append_right _ hc)

/-! ### All rounds -/

private theorem Covers.guarded (hp : Covers [p] C) (b : Bool) :
    Covers (if b then [p] else []) fun s => b = true ∧ C s := by
  cases b with
  | false => exact .nil fun s hs => Bool.noConfusion hs.1
  | true => exact hp.of_iff fun s => (and_iff_right rfl).symm

section

variable (hbody : ∀ C q, Covers [q] C → Follows dead C B .next (body q))
  (hpost : ∀ C q, Covers [q] C → q.ended = false → Follows dead C P .next (post q))
  (hcut : P [] .cut) (hjump : ∀ t k l, ¬P t (.jump k l))

/-- A second send in the second round is one of the loop. -/
private theorem Rounded.finds {r : Path × List Path} {js : List Jump} {e : ExtraSend}
    (h : Rounded C label B P r js)
    (he : Finds dead (nextRound C label B P) (Runs.Rounds label mayStop B P) e) :
    Finds dead C (Runs.Rounds label mayStop B P) e := by
  have hafter : Finds dead (ending C label B) (P.andThen (Runs.Rounds label mayStop B P)) e :=
    he.of_extend (fun s t => h.cleanPost s t .next) fun t u y ht hu =>
      ⟨[], y, Or.inr ⟨t, u, ht, hu, List.append_nil _⟩⟩
  refine hafter.of_extend (fun s t hs ⟨_, y, ht, _⟩ => h.clean s t y hs ht) ?_
  rintro t u y ⟨-, x, ht, hx⟩ hu
  refine ⟨[], y, ?_⟩
  rw [List.append_nil]
  rcases hu with ⟨hu, hy⟩ | ⟨u, v, hu, hv, rfl⟩
  · exact .halt ht hx hu hy
  · rw [← List.append_assoc]
    exact .again ht hx hu hv

/-- What the second round adds to what is known after the first. -/
structure Settled (C : Reached) (label : Option String) (mayStop : Bool) (B P : Runs Send)
    (exits : List Path) (js : List Jump) : Prop where
  idle : Idle label B P
  exits : ∃ D, Covers exits D ∧ ∀ s, D s → extend C (Runs.Rounds label mayStop B P) .next s
  passing : ∀ k l, ∃ D, Covers (pathsOf js k l) D ∧ ∀ s, D s →
    Target.takes ⟨label, true⟩ k l = false ∧ extend C B (.jump k l) s

include hbody hpost hcut hjump in
private theorem Rounded.settled {q : Path} {breaks : List Path} {js : List Jump} (hC : ∃ s, C s)
    (h : Rounded C label B P (q, breaks) js) :
    Spec (rounds mayStop (round label body post) 1 q)
      (Finds dead C (Runs.Rounds label mayStop B P)) (Settled C label mayStop B P) := by
  simp only [rounds]
  by_cases hended : q.ended = true
  · rw [if_pos hended]
    refine .pure ⟨?_, ⟨fun _ => False, .nil fun _ => id, fun _ => False.elim⟩,
      fun k l => ⟨fun _ => False, .nil fun _ => id, fun _ => False.elim⟩⟩
    intro u v y hu hy hv
    obtain ⟨s, hs⟩ := hC
    exact absurd ⟨_, v, ⟨s, u, hs, ⟨rfl, y, hu, hy⟩, rfl⟩, hv, rfl⟩ (h.next.not_of_ended hended _)
  · rw [if_neg hended]
    refine ((Follows.round (hbody _ q h.next) hpost hcut hjump).mono (fun e he => h.finds he)
      fun _ _ h => h).bind fun r ks hr => ?_
    obtain ⟨q', breaks'⟩ := r
    have hidle := hr.idle hC
    simp only [pure_bind]
    refine .pure ⟨hidle, ?_, fun k l => ⟨_, hr.passing k l, ?_⟩⟩
    · rw [List.append_nil]
      refine ⟨_, hr.breaks.append (hr.next.guarded mayStop), ?_⟩
      rintro s (⟨l, hl, s₀, t, hs₀, ht, rfl⟩ | ⟨hstop, hs⟩)
      · exact ⟨s₀, t, hidle.nextRound_subset hs₀, .leave ht hl, rfl⟩
      · exact ⟨s, [], hidle.nextRound_subset (hidle.nextRound_subset hs), .stop hstop, by simp⟩
    · rintro s ⟨hkl, s₀, t, hs₀, ht, rfl⟩
      exact ⟨hkl, s₀, t, hidle.nextRound_subset hs₀, ht, rfl⟩

/-- The paths that leave an idle loop, as the first round shows them. -/
private theorem Idle.extend_next_iff (h : Idle label B P) (s : List String) :
    (mayStop = true ∧ C s) ∨ (∃ l, (Exit.jump false l).leaves label = true ∧
      extend C B (.jump false l) s) ↔ extend C (Runs.Rounds label mayStop B P) .next s := by
  constructor
  · rintro (⟨hstop, hs⟩ | ⟨l, hl, s₀, t, hs₀, ht, rfl⟩)
    · exact ⟨s, [], hs, .stop hstop, by simp⟩
    · exact ⟨s₀, t, hs₀, .leave ht hl, rfl⟩
  · rintro ⟨s₀, t, hs₀, ht, rfl⟩
    rcases h.last_round ht with ⟨-, hx⟩ | ⟨hstop, rfl, -⟩ | ⟨-, y, hy, hl⟩ | ⟨-, -, hs⟩ | ⟨hx, -⟩
    · cases hx
    · exact Or.inl ⟨hstop, by simpa using hs₀⟩
    · cases y with
      | jump k l =>
        cases k with
        | false => exact Or.inr ⟨l, hl, s₀, t, hs₀, hy, rfl⟩
        | true => cases hl
      | _ => cases hl
    · cases hs
    · exact absurd rfl hx

include hjump in
private theorem Idle.extend_jump_iff (h : Idle label B P) (k : Bool) (l : Option String)
    (s : List String) : Target.takes ⟨label, true⟩ k l = false ∧ extend C B (.jump k l) s ↔
      extend C (Runs.Rounds label mayStop B P) (.jump k l) s := by
  have htakes : Target.takes ⟨label, true⟩ k l = false ↔
      (Exit.jump k l).leaves label = false ∧ (Exit.jump k l).stays label = false := by
    cases k with
    | false => rw [Target.takes_break]; exact (and_iff_left rfl).symm
    | true => rw [Target.takes_continue]; exact (and_iff_right rfl).symm
  constructor
  · rintro ⟨hkl, s₀, t, hs₀, ht, rfl⟩
    obtain ⟨hl, hs⟩ := htakes.mp hkl
    exact ⟨s₀, t, hs₀, .pass ht hl hs, rfl⟩
  · rintro ⟨s₀, t, hs₀, ht, rfl⟩
    rcases h.last_round ht with ⟨-, hx⟩ | ⟨-, -, hx⟩ | ⟨hx, -⟩ | ⟨hb, hl, hs⟩ | ⟨-, hx⟩
    · cases hx
    · cases hx
    · cases hx
    · exact ⟨htakes.mpr ⟨hl, hs⟩, s₀, t, hs₀, hb, rfl⟩
    · rcases hx with ⟨⟨hx, -⟩, -⟩ | ⟨u, v, -, hv, -⟩
      · cases hx
      · exact absurd hv (hjump v k l)

/-- In an idle loop all second sends are in the first round. -/
private theorem Rounded.clean_rounds {r : Path × List Path} {js : List Jump}
    (h : Rounded C label B P r js) (hidle : Idle label B P) {s : List String} {t : List Send}
    {x : Exit} (hs : C s) (ht : Runs.Rounds label mayStop B P t x) : secondSend? s t = none := by
  rcases hidle.last_round ht with ⟨rfl, -⟩ | ⟨-, rfl, -⟩ | ⟨-, y, hy, -⟩ | ⟨hb, -, -⟩ | ⟨hx, hb⟩
  · rfl
  · rfl
  · exact h.clean s t y hs hy
  · exact h.clean s t x hs hb
  · rcases hb with ⟨⟨rfl, -⟩, -⟩ | ⟨u, v, ⟨-, y, hu, hy⟩, hv, rfl⟩
    · exact absurd rfl hx
    · rw [secondSend?_append, h.clean s u y hs hu, Option.none_or]
      exact h.cleanPost _ v x ⟨s, u, hs, ⟨rfl, y, hu, hy⟩, rfl⟩ hv

include hbody hpost hcut hjump in
/-- A walk follows the paths through any number of rounds of a loop. -/
theorem Follows.loop (hp : Covers [p] C) :
    Follows dead C (Runs.Rounds label mayStop B P) .next (loop label mayStop body post p) := by
  by_cases hended : p.ended = true
  · refine .of_empty (hp.not_of_ended hended) ?_
    simp only [Sends.loop, rounds, hended, ↓reduceIte, pure_bind]
    refine .pure ⟨?_, rfl⟩
    cases mayStop <;> simp [Path.join, Path.closed, hended]
  · have hC : ∃ s, C s := hp.singleton_live.mp (eq_false_of_ne_true hended)
    have hround : Spec (Sends.round label body post p)
      (Finds dead C (Runs.Rounds label mayStop B P))
        (Rounded C label B P) := Follows.round (hbody C p hp) hpost hcut hjump
    have hexits : Spec (rounds mayStop (Sends.round label body post) 2 p)
        (Finds dead C (Runs.Rounds label mayStop B P)) fun exits js =>
          Knows C (Runs.Rounds label mayStop B P) .next
            (.join (if mayStop then p :: exits else exits)) js := by
      rw [rounds, if_neg hended]
      refine hround.bind fun r js hr => ?_
      obtain ⟨q, breaks⟩ := r
      refine (hr.settled hbody hpost hcut hjump hC).bind_pure fun exits ks hset => ?_
      refine ⟨fun s t x hs ht => hr.clean_rounds hset.idle hs ht, ?_, fun k l => ?_⟩
      · obtain ⟨D, hD, hsub⟩ := hset.exits
        have hfirst : Covers ((if mayStop then [p] else []) ++ breaks)
            (extend C (Runs.Rounds label mayStop B P) .next) :=
          ((hp.guarded mayStop).append hr.breaks).of_iff hset.idle.extend_next_iff
        have hall := hfirst.append_of_subset ((hr.next.guarded mayStop).append hD) fun s => by
          rintro (⟨hstop, hs⟩ | hs)
          · exact ⟨s, [], hset.idle.nextRound_subset hs, .stop hstop, by simp⟩
          · exact hsub s hs
        convert hall.join using 3
        cases mayStop <;> simp
      · obtain ⟨D, hD, hsub⟩ := hset.passing k l
        have hjumps : ∀ s, _ ↔ extend C (Runs.Rounds label mayStop B P) (.jump k l) s :=
          hset.idle.extend_jump_iff hjump k l
        rw [pathsOf_append]
        refine (hD.append ((hr.passing k l).of_iff hjumps)).of_iff fun s => ?_
        exact or_iff_right_of_imp fun hs => (hjumps s).mp (hsub s hs)
    exact hexits.bind_pure fun _ _ h => h

end

end ServiceSplit.Sends
