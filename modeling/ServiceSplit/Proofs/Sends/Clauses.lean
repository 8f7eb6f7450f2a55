import ServiceSplit.Proofs.Placement
import ServiceSplit.Proofs.Sends.Follow
import ServiceSplit.Proofs.Sends.Literals

/-!
# Following clauses

The clauses of a switch and of a select, given walks that follow the statements of each clause. A
clause of a switch starts with the paths that enter the switch, and with those that fall through
from the clause before.
-/

namespace ServiceSplit.Sends

open Runs (falling entering)

variable {dead : List Send} {C D F : Reached} {R S : Runs Send} {Rs : List (Runs Send)} {x : Exit}
  {channels : List String} {V : View Send}

/-! ### Paths that enter a switch -/

private theorem extend_or_iff (s : List String) :
    extend (fun s => C s ∨ D s) R x s ↔ extend C R x s ∨ extend D R x s := by
  constructor
  · rintro ⟨s₀, t, hs₀ | hs₀, ht, rfl⟩
    · exact Or.inl ⟨s₀, t, hs₀, ht, rfl⟩
    · exact Or.inr ⟨s₀, t, hs₀, ht, rfl⟩
  · rintro (⟨s₀, t, hs₀, ht, rfl⟩ | ⟨s₀, t, hs₀, ht, rfl⟩)
    · exact ⟨s₀, t, Or.inl hs₀, ht, rfl⟩
    · exact ⟨s₀, t, Or.inr hs₀, ht, rfl⟩

private theorem extend_falling_iff (hx : x ≠ .fall) (s : List String) :
    extend C (falling (R :: Rs)) x s ↔
      extend C R x s ∨ extend (extend C R .fall) (falling Rs) x s := by
  constructor
  · rintro ⟨s₀, t, hs₀, ⟨ht, -⟩ | ⟨u, v, hu, hv, rfl⟩, rfl⟩
    · exact Or.inl ⟨s₀, t, hs₀, ht, rfl⟩
    · refine Or.inr ⟨_, v, ⟨s₀, u, hs₀, hu, rfl⟩, hv, ?_⟩
      rw [List.map_append, List.append_assoc]
  · rintro (⟨s₀, t, hs₀, ht, rfl⟩ | ⟨_, v, ⟨s₀, u, hs₀, hu, rfl⟩, hv, rfl⟩)
    · exact ⟨s₀, t, hs₀, Or.inl ⟨ht, hx⟩, rfl⟩
    · refine ⟨s₀, u ++ v, hs₀, Or.inr ⟨u, v, hu, hv, rfl⟩, ?_⟩
      rw [List.map_append, List.append_assoc]

/-- The paths of `C` that enter one of some clauses, with those of `F` that fall into the first, as
they leave the clauses by `x`. -/
def through (C F : Reached) (Rs : List (Runs Send)) (x : Exit) : Reached := fun s =>
  extend C (entering Rs) x s ∨ extend F (falling Rs) x s

private theorem through_cons_iff (hx : x ≠ .fall) (s : List String) :
    through C F (R :: Rs) x s ↔
      extend (fun s => C s ∨ F s) R x s ∨
        through C (extend (fun s => C s ∨ F s) R .fall) Rs x s := by
  have hfall : extend (fun s => C s ∨ F s) R .fall =
      fun s => extend C R .fall s ∨ extend F R .fall s :=
    funext fun s => propext (extend_or_iff s)
  have hentering : extend C (entering (R :: Rs)) x s ↔
      extend C (falling (R :: Rs)) x s ∨ extend C (entering Rs) x s :=
    extend_either_iff s
  rw [through, through, hfall, hentering, extend_or_iff, extend_or_iff, extend_falling_iff hx,
    extend_falling_iff hx]
  tauto

/-- A second send on the paths through some clauses. -/
def FindsThrough (dead : List Send) (C F : Reached) (Rs : List (Runs Send)) (e : ExtraSend) :
    Prop :=
  Finds dead C (entering Rs) e ∨ Finds dead F (falling Rs) e

private theorem Finds.or {e : ExtraSend} (h : Finds dead (fun s => C s ∨ D s) R e) :
    Finds dead C R e ∨ Finds dead D R e := by
  rcases h with ⟨s, t, x, hs | hs, ht, he⟩ | he
  · exact Or.inl (Or.inl ⟨s, t, x, hs, ht, he⟩)
  · exact Or.inr (Or.inl ⟨s, t, x, hs, ht, he⟩)
  · exact Or.inl (Or.inr he)

private theorem FindsThrough.of_falling {e : ExtraSend}
    (h : Finds dead (fun s => C s ∨ F s) (falling (R :: Rs)) e) :
    FindsThrough dead C F (R :: Rs) e := by
  rcases h.or with h | h
  · exact Or.inl (h.of_starts fun t x ht => ⟨[], x, Or.inl (by rwa [List.append_nil])⟩)
  · exact Or.inr h

/-- What a walk through the clauses of a switch knows, where `C` are the paths that enter it and `F`
those that fall into the first clause. -/
structure Entered (C F : Reached) (Rs : List (Runs Send)) (exits : List Path) (js : List Jump) :
    Prop where
  clean : ∀ s t x, C s → entering Rs t x → secondSend? s t = none
  cleanFall : ∀ s t x, F s → falling Rs t x → secondSend? s t = none
  exits : Covers exits (through C F Rs .next)
  jumps : ∀ k l, Covers (pathsOf js k l) (through C F Rs (.jump k l))

/-! ### The clauses of a switch -/

/-- How the paths through a clause leave it at its end. -/
def clauseExit (body : List Stmt) : Exit :=
  if fallsThrough body then .fall else .next

/-- A walk follows the statements of a clause, which either all fall through at its end or not at
all. -/
structure FollowsClause (dead : List Send) (channels : List String) (V : View Send)
    (body : List Stmt) : Prop where
  follows : ∀ C p, Covers [p] C →
    Follows dead C (stmtsRuns V body) (clauseExit body) (stmts channels body p)
  noFall : fallsThrough body = false → ∀ t, ¬stmtsRuns V body t .fall

section

variable {body : List Stmt} {exit : Path} {exits : List Path} {js ks : List Jump}

private theorem findsThrough_of_clause (hbody : FollowsClause dead channels V body)
    (hnext : fallsThrough body = true → falling Rs [] .cut) {e : ExtraSend}
    (h : Finds dead (fun s => C s ∨ F s) (stmtsRuns V body) e) :
    FindsThrough dead C F (stmtsRuns V body :: Rs) e := by
  refine .of_falling (h.of_starts fun t x ht => ?_)
  by_cases hx : x = .fall
  · subst hx
    have hfalls : fallsThrough body = true := by
      by_contra hfalls
      exact hbody.noFall (eq_false_of_ne_true hfalls) t ht
    exact ⟨[], .cut, Or.inr ⟨t, [], ht, hnext hfalls, rfl⟩⟩
  · exact ⟨[], x, Or.inl ⟨by rwa [List.append_nil], hx⟩⟩

private theorem findsThrough_of_rest
    (hclean : ∀ s t x, C s ∨ F s → R t x → secondSend? s t = none) {e : ExtraSend}
    (h : FindsThrough dead C (extend (fun s => C s ∨ F s) R .fall) Rs e) :
    FindsThrough dead C F (R :: Rs) e := by
  rcases h with h | h
  · exact Or.inl (h.of_starts fun t x ht => ⟨[], x, Or.inr (by rwa [List.append_nil])⟩)
  · refine .of_falling (h.of_extend (fun s t => hclean s t .fall) fun t u y ht hu => ⟨[], y, ?_⟩)
    exact Or.inr ⟨t, u, ht, hu, List.append_nil _⟩

/-- What is known behind a clause, and behind the ones after it. -/
private theorem Entered.cons
    (h : Knows (fun s => C s ∨ F s) (stmtsRuns V body) (clauseExit body) exit js)
    (hrest : Entered C (extend (fun s => C s ∨ F s) (stmtsRuns V body) .fall) Rs exits ks) :
    Entered C F (stmtsRuns V body :: Rs) (if fallsThrough body then exits else exit :: exits)
      (ks ++ js) := by
  have hfalling : ∀ s t x, C s ∨ F s → falling (stmtsRuns V body :: Rs) t x →
      secondSend? s t = none := by
    rintro s t x hs (⟨ht, -⟩ | ⟨u, v, hu, hv, rfl⟩)
    · exact h.clean s t x hs ht
    · rw [secondSend?_append, h.clean s u .fall hs hu, Option.none_or]
      exact hrest.cleanFall _ v x ⟨s, u, hs, hu, rfl⟩ hv
  refine ⟨?_, fun s t x hs => hfalling s t x (Or.inr hs), ?_, fun k l => ?_⟩
  · rintro s t x hs (ht | ht)
    · exact hfalling s t x (Or.inl hs) ht
    · exact hrest.clean s t x hs ht
  · have hall : ∀ s, _ ↔ through C F (stmtsRuns V body :: Rs) .next s := fun s =>
      (through_cons_iff Exit.noConfusion s).symm
    cases hfalls : fallsThrough body with
    | true =>
      refine hrest.exits.of_iff fun s => (Iff.trans ?_ (hall s))
      refine (or_iff_right ?_).symm
      rintro ⟨_, t, -, ht, -⟩
      exact not_stmtsRuns_next hfalls t ht
    | false =>
      have hexit := h.exit
      rw [clauseExit, hfalls] at hexit
      exact (hexit.append hrest.exits).of_iff hall
  · rw [pathsOf_append]
    refine ((hrest.jumps k l).append (h.jumps k l)).of_iff fun s => ?_
    rw [through_cons_iff Exit.noConfusion, or_comm]

/-- What is known where a clause starts. -/
private theorem covers_start {entry : Path} (hentry : Covers [entry] C) {carried : Option Path} :
    Covers carried.toList F →
      Covers [match carried with
        | some before => Path.join [entry, before]
        | none => entry] fun s => C s ∨ F s := by
  intro hcarried
  cases carried with
  | none => exact hentry.append hcarried
  | some before => exact (hentry.append hcarried).join

/-- A clause and the ones behind it. -/
private theorem clause_spec (hbody : FollowsClause dead channels V body)
    (hnext : fallsThrough body = true → falling Rs [] .cut) {start : Path}
    (hstart : Covers [start] fun s => C s ∨ F s) {rest : Option Path → Walk (List Path)}
    (hrest : ∀ carried F', Covers carried.toList F' → (fallsThrough body = false → carried = none) →
      Spec (rest carried) (FindsThrough dead C F' Rs) (Entered C F' Rs)) :
    Spec (do
        let exit ← stmts channels body start
        if fallsThrough body then rest (some exit) else return exit :: (← rest none))
      (FindsThrough dead C F (stmtsRuns V body :: Rs))
      (Entered C F (stmtsRuns V body :: Rs)) := by
  refine ((hbody.follows _ start hstart).mono (fun e he => ?_) fun _ _ h => h).bind
    fun exit js hexit => ?_
  · exact findsThrough_of_clause hbody hnext he
  have hbad : ∀ e, FindsThrough dead C (extend (fun s => C s ∨ F s) (stmtsRuns V body) .fall) Rs e →
      FindsThrough dead C F (stmtsRuns V body :: Rs) e :=
    fun e => findsThrough_of_rest hexit.clean
  cases hfalls : fallsThrough body with
  | true =>
    have hcarried := hexit.exit
    rw [clauseExit, hfalls] at hcarried
    refine (hrest (some exit) _ hcarried (by simp [hfalls])).mono hbad fun exits ks h => ?_
    simpa [hfalls] using Entered.cons hexit h
  | false =>
    have hnone : Covers [] (extend (fun s => C s ∨ F s) (stmtsRuns V body) .fall) := by
      refine .nil ?_
      rintro _ ⟨_, t, -, ht, -⟩
      exact hbody.noFall hfalls t ht
    refine ((hrest none _ hnone fun _ => rfl).mono hbad fun _ _ h => h).bind_pure fun exits ks h =>
      ?_
    simpa [hfalls] using Entered.cons hexit h

end

private theorem falling_cut {cs : List CaseClause} (h : cs.isEmpty = false) :
    falling (casesRuns V cs) [] .cut := by
  cases cs with
  | nil => cases h
  | cons c cs =>
    cases c with
    | case xs body sp | default body sp =>
      exact Or.inl ⟨stmtsRuns_cut V body, Exit.noConfusion⟩

/-- A walk follows the clauses of a switch. -/
theorem cases_spec {cs : List CaseClause} {mayFall : Bool} {targets : List Target}
    (hcs : ∀ c ∈ cs, FollowsClause dead channels V c.body)
    (hplaced : casesPlaced mayFall targets cs = true) (hlit : LiteralFree (casesEvents {} cs))
    {entry : Path} (hentry : Covers [entry] C) {carried : Option Path}
    (hcarried : Covers carried.toList F) (hlast : cs = [] → carried = none) :
    Spec (cases channels entry cs carried) (FindsThrough dead C F (casesRuns V cs))
      (Entered C F (casesRuns V cs)) := by
  induction cs generalizing F carried with
  | nil =>
    obtain rfl := hlast rfl
    refine .pure ⟨?_, fun _ _ _ _ ht => ht.elim, ?_, fun k l => ?_⟩
    · rintro s t x - ⟨rfl, -⟩
      rfl
    · refine .nil ?_
      rintro _ (⟨_, _, _, ⟨_, h⟩, _⟩ | ⟨_, _, _, h, _⟩)
      · cases h
      · exact h
    · refine .nil ?_
      rintro _ (⟨_, _, _, ⟨_, h⟩, _⟩ | ⟨_, _, _, h, _⟩)
      · cases h
      · exact h
  | cons c cs ih =>
    have hrest : ∀ body, stmtsPlaced (mayFall && !cs.isEmpty) targets body = true →
        casesPlaced mayFall targets cs = true → LiteralFree (casesEvents {} cs) →
        (fallsThrough body = true → falling (casesRuns V cs) [] .cut) ∧
        ∀ carried F', Covers carried.toList F' → (fallsThrough body = false → carried = none) →
          Spec (cases channels entry cs carried) (FindsThrough dead C F' (casesRuns V cs))
            (Entered C F' (casesRuns V cs)) := by
      intro body hb hp hl
      have hempty : fallsThrough body = true → cs.isEmpty = false := by
        intro hfalls
        have hmay := mayFall_of_fallsThrough hb hfalls
        simp only [Bool.and_eq_true, Bool.not_eq_true'] at hmay
        exact hmay.2
      refine ⟨fun hfalls => falling_cut (hempty hfalls), fun carried F' hcarried hnone => ?_⟩
      refine ih (fun d hd => hcs d (List.mem_cons_of_mem c hd)) hp hl hcarried ?_
      rintro rfl
      refine hnone (eq_false_of_ne_true fun hfalls => ?_)
      exact absurd (hempty hfalls) Bool.noConfusion
    cases c with
    | case xs body sp =>
      simp only [casesPlaced, Bool.and_eq_true] at hplaced
      simp only [casesEvents, literalFree_append] at hlit
      obtain ⟨hnext, hrest⟩ := hrest body hplaced.1 hplaced.2 hlit.2
      rw [cases, exprs_eq_pure hlit.1.1, pure_bind]
      exact clause_spec (hcs _ List.mem_cons_self) hnext (covers_start hentry hcarried) hrest
    | default body sp =>
      simp only [casesPlaced, Bool.and_eq_true] at hplaced
      simp only [casesEvents, literalFree_append] at hlit
      obtain ⟨hnext, hrest⟩ := hrest body hplaced.1 hplaced.2 hlit.2
      simp only [cases]
      exact clause_spec (hcs _ List.mem_cons_self) hnext (covers_start hentry hcarried) hrest

private theorem extend_clauses_iff {mayPass : Bool} (s : List String) :
    extend C (Runs.clauses mayPass Rs) x s ↔
      extend C (entering Rs) x s ∨ (mayPass = true ∧ x = .next ∧ C s) := by
  constructor
  · rintro ⟨s₀, t, hs₀, ht | ⟨hpass, rfl, rfl⟩, rfl⟩
    · exact Or.inl ⟨s₀, t, hs₀, ht, rfl⟩
    · exact Or.inr ⟨hpass, rfl, by simpa using hs₀⟩
  · rintro (⟨s₀, t, hs₀, ht, rfl⟩ | ⟨hpass, rfl, hs⟩)
    · exact ⟨s₀, t, hs₀, Or.inl ht, rfl⟩
    · exact ⟨s, [], hs, Or.inr ⟨hpass, rfl, rfl⟩, by simp⟩

/-- A walk follows the inside of a switch, which is passed over if it has no default clause. -/
theorem Follows.clauses {cs : List CaseClause} {mayFall : Bool} {targets : List Target}
    (hcs : ∀ c ∈ cs, FollowsClause dead channels V c.body)
    (hplaced : casesPlaced mayFall targets cs = true) (hlit : LiteralFree (casesEvents {} cs))
    {entry : Path} (hentry : Covers [entry] C) :
    Follows dead C (Runs.clauses (!cs.any CaseClause.isDefault) (casesRuns V cs)) .next (do
      let exits ← cases channels entry cs none
      return .join (if cs.any CaseClause.isDefault then exits else exits ++ [entry])) := by
  have hthrough : ∀ x s, through C (fun _ => False) (casesRuns V cs) x s ↔
      extend C (entering (casesRuns V cs)) x s := fun x s =>
    or_iff_left (extend_empty (fun _ => id) x s)
  have hcases : Spec (cases channels entry cs none) _
    (Entered C (fun _ => False) (casesRuns V cs)) :=
    cases_spec hcs hplaced hlit hentry (.nil fun _ => id) fun _ => rfl
  refine (hcases.mono (fun e he => ?_) fun _ _ h => h).bind_pure fun exits js h =>
    ⟨?_, ?_, fun k l => ?_⟩
  · rcases he with he | ⟨_, _, _, h, _⟩ | he
    · exact he.of_starts fun t x ht => ⟨[], x, Or.inl (by rwa [List.append_nil])⟩
    · exact h.elim
    · exact Or.inr he
  · rintro s t x hs (ht | ⟨-, rfl, -⟩)
    · exact h.clean s t x hs ht
    · rfl
  · have hexits := h.exits.of_iff (hthrough .next)
    cases hdefault : cs.any CaseClause.isDefault with
    | true =>
      refine (hexits.of_iff fun s => ?_).join
      simp [extend_clauses_iff]
    | false =>
      refine ((hexits.append hentry).of_iff fun s => ?_).join
      simp [extend_clauses_iff]
  · refine ((h.jumps k l).of_iff (hthrough (.jump k l))).of_iff fun s => ?_
    simp [extend_clauses_iff]

/-! ### The clauses of a select -/

private theorem extend_oneOf_cons_iff (hx : x ≠ .cut) (s : List String) :
    extend C (Runs.oneOf (R :: Rs)) x s ↔ extend C R x s ∨ extend C (Runs.oneOf Rs) x s := by
  constructor
  · rintro ⟨s₀, t, hs₀, ⟨-, h⟩ | ⟨S, hS, ht⟩, rfl⟩
    · exact absurd h hx
    · rcases List.mem_cons.mp hS with rfl | hS
      · exact Or.inl ⟨s₀, t, hs₀, ht, rfl⟩
      · exact Or.inr ⟨s₀, t, hs₀, Or.inr ⟨S, hS, ht⟩, rfl⟩
  · rintro (⟨s₀, t, hs₀, ht, rfl⟩ | ⟨s₀, t, hs₀, ⟨-, h⟩ | ⟨S, hS, ht⟩, rfl⟩)
    · exact ⟨s₀, t, hs₀, Or.inr ⟨R, List.mem_cons_self, ht⟩, rfl⟩
    · exact absurd h hx
    · exact ⟨s₀, t, hs₀, Or.inr ⟨S, List.mem_cons_of_mem R hS, ht⟩, rfl⟩

private theorem oneOf_cons_of_tail {t : List Send} (h : Runs.oneOf Rs t x) :
    Runs.oneOf (R :: Rs) t x := by
  rcases h with h | ⟨S, hS, ht⟩
  · exact Or.inl h
  · exact Or.inr ⟨S, List.mem_cons_of_mem R hS, ht⟩

/-- What a walk through the clauses of a select knows. -/
structure Chosen (C : Reached) (Rs : List (Runs Send)) (exits : List Path) (js : List Jump) :
    Prop where
  clean : ∀ s t x, C s → Runs.oneOf Rs t x → secondSend? s t = none
  exits : Covers exits (extend C (Runs.oneOf Rs) .next)
  jumps : ∀ k l, Covers (pathsOf js k l) (extend C (Runs.oneOf Rs) (.jump k l))

/-- A walk follows the clauses of a select. -/
theorem comms_spec {cs : List CommClause} {entry : Path}
    (hcs : ∀ c ∈ cs, Follows dead C ((stmtRuns? V c.comm).andThen (stmtsRuns V c.body)) .next
      (stmt? channels c.comm entry >>= stmts channels c.body)) :
    Spec (comms channels entry cs) (Finds dead C (Runs.oneOf (commsRuns V cs)))
      (Chosen C (commsRuns V cs)) := by
  induction cs with
  | nil =>
    have hnone : ∀ {x : Exit} (_ : x ≠ .cut) (s : List String),
        ¬extend C (Runs.oneOf (commsRuns V [])) x s := by
      rintro x hx s ⟨_, _, -, ⟨-, h⟩ | ⟨S, hS, -⟩, -⟩
      · exact hx h
      · cases hS
    refine .pure ⟨?_, .nil (hnone Exit.noConfusion), fun k l => .nil (hnone Exit.noConfusion)⟩
    rintro s t x - (⟨rfl, -⟩ | ⟨S, hS, -⟩)
    · rfl
    · cases hS
  | cons c cs ih =>
    obtain ⟨comm, body, sp⟩ := c
    rw [comms, ← bind_assoc]
    refine ((hcs _ List.mem_cons_self).mono (fun e he => ?_) fun _ _ h => h).bind fun q js hq => ?_
    · exact he.of_starts fun t x ht =>
        ⟨[], x, Or.inr ⟨_, List.mem_cons_self, by rwa [List.append_nil]⟩⟩
    refine ((ih fun d hd => hcs d (List.mem_cons_of_mem _ hd)).mono (fun e he => ?_)
      fun _ _ h => h).bind_pure fun exits ks h => ⟨?_, ?_, fun k l => ?_⟩
    · exact he.of_starts fun t x ht => ⟨[], x, oneOf_cons_of_tail (by rwa [List.append_nil])⟩
    · rintro s t x hs (⟨rfl, -⟩ | ⟨S, hS, ht⟩)
      · rfl
      · rcases List.mem_cons.mp hS with rfl | hS
        · exact hq.clean s t x hs ht
        · exact h.clean s t x hs (Or.inr ⟨S, hS, ht⟩)
    · exact (hq.exit.append h.exits).of_iff fun s => (extend_oneOf_cons_iff Exit.noConfusion s).symm
    · rw [pathsOf_append]
      refine ((h.jumps k l).append (hq.jumps k l)).of_iff fun s => ?_
      rw [or_comm]
      exact (extend_oneOf_cons_iff Exit.noConfusion s).symm

/-- A walk follows the inside of a select. -/
theorem Follows.comms {cs : List CommClause} {entry : Path}
    (hcs : ∀ c ∈ cs, Follows dead C ((stmtRuns? V c.comm).andThen (stmtsRuns V c.body)) .next
      (stmt? channels c.comm entry >>= stmts channels c.body)) :
    Follows dead C (Runs.oneOf (commsRuns V cs)) .next (do
      return .join (← comms channels entry cs)) :=
  (comms_spec hcs).bind_pure fun _ _ h => ⟨h.clean, h.exits.join, h.jumps⟩

end ServiceSplit.Sends
