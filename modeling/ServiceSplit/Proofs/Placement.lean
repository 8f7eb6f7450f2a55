import ServiceSplit.Proofs.Paths
import ServiceSplit.Sends

/-!
# Where jumps may stand

The rules of the language for `break`, `continue` and `fallthrough`. A `break` stands in a loop,
switch or select, and a `continue` in a loop; one with a label stands in the statement with this
label, which for a `continue` is a loop. A `fallthrough` is the last statement of a clause of a
switch, but of no type switch and not of the last clause. The headers of statements hold simple
statements only, and behind `else` stands a block or another `if`, as the grammar has it.
-/

namespace ServiceSplit

open Sends (Target fallsThrough)

/-- Whether a statement can stand in the header of another one. -/
def Stmt.isSimple : Stmt → Bool
  | send .. | expr _ | incDec .. | assign .. => true
  | _ => false

/-- Whether a statement can stand behind `else`. -/
def Stmt.isBranch : Stmt → Bool
  | block _ | ifElse .. => true
  | _ => false

/-- Whether a statement is `fallthrough`. -/
def Stmt.isFallthrough : Stmt → Bool
  | branch .fallthrough _ _ => true
  | _ => false

/-- Whether a `break` or `continue` can stand inside `targets`, of which the innermost comes
first. -/
def jumpPlaced (targets : List Target) (isContinue : Bool) : (label : Option String) → Bool
  | none => targets.any fun t => t.isLoop || !isContinue
  | some l => (targets.find? fun t => t.label == some l).any fun t => t.isLoop || !isContinue

mutual

/-- Whether the jumps in a statement with a label, inside `targets`, stand where they may. -/
def Stmt.placed (targets : List Target) (label : Option String) : Stmt → Bool
  | .decl _ | .expr _ | .send .. | .incDec .. | .assign .. | .go .. | .defer .. | .returns ..
  | .empty _ => true
  | .labeled l s _ => s.placed targets (some l.name)
  | .branch .breakTo l _ => jumpPlaced targets false (l.map Ident.name)
  | .branch .continueTo l _ => jumpPlaced targets true (l.map Ident.name)
  | .branch .goto _ _ | .branch .fallthrough _ _ => false
  | .block b => b.placed targets
  | .ifElse init _ body els _ =>
    init.all Stmt.isSimple && body.placed targets && els.all Stmt.isBranch &&
      stmtPlaced? targets els
  | .switch init _ clauses _ =>
    init.all Stmt.isSimple && casesPlaced true (⟨label, false⟩ :: targets) clauses
  | .typeSwitch init _ _ clauses _ =>
    init.all Stmt.isSimple && casesPlaced false (⟨label, false⟩ :: targets) clauses
  | .select clauses _ => commsPlaced (⟨label, false⟩ :: targets) clauses
  | .loop init _ post body _ =>
    init.all Stmt.isSimple && post.all Stmt.isSimple && body.placed (⟨label, true⟩ :: targets)
  | .range _ _ _ _ body _ => body.placed (⟨label, true⟩ :: targets)

/-- Whether the jumps in an optional statement stand where they may. -/
def stmtPlaced? (targets : List Target) : Option Stmt → Bool
  | none => true
  | some s => s.placed targets none

/-- Whether the jumps in several statements stand where they may; `mayFall` tells that a
`fallthrough` can be the last one. -/
def stmtsPlaced (mayFall : Bool) (targets : List Target) : List Stmt → Bool
  | [] => true
  | s :: ss =>
    (s.placed targets none || (mayFall && s.isFallthrough && ss.isEmpty)) &&
      stmtsPlaced mayFall targets ss

/-- Whether the jumps in a block stand where they may. -/
def Block.placed (targets : List Target) : Block → Bool
  | ⟨ss, _⟩ => stmtsPlaced false targets ss

/-- Whether the jumps in the clauses of a switch stand where they may; `mayFall` tells that all but
the last can fall through. -/
def casesPlaced (mayFall : Bool) (targets : List Target) : List CaseClause → Bool
  | [] => true
  | .case _ body _ :: cs =>
    stmtsPlaced (mayFall && !cs.isEmpty) targets body && casesPlaced mayFall targets cs
  | .default body _ :: cs =>
    stmtsPlaced (mayFall && !cs.isEmpty) targets body && casesPlaced mayFall targets cs

/-- Whether the jumps in the clauses of a select stand where they may. -/
def commsPlaced (targets : List Target) : List CommClause → Bool
  | [] => true
  | ⟨comm, body, _⟩ :: cs =>
    comm.all Stmt.isSimple && stmtsPlaced false targets body && commsPlaced targets cs

end

/-- Whether a path can leave a part inside `targets` in this way; `mayFall` tells that it can fall
through into the next clause. -/
def exitPlaced (mayFall : Bool) (targets : List Target) : Exit → Bool
  | .jump isContinue label => jumpPlaced targets isContinue label
  | .fall => mayFall
  | .next | .finished | .cut => true

theorem exitPlaced_of_nil {x : Exit} (h : exitPlaced false [] x = true) (mayFall : Bool)
    (targets : List Target) : exitPlaced mayFall targets x = true := by
  cases x with
  | jump k l => cases l <;> cases h
  | fall => cases h
  | next | finished | cut => rfl

theorem not_exitPlaced_nil_jump (isContinue : Bool) (label : Option String) :
    ¬exitPlaced false [] (.jump isContinue label) = true := by
  cases label <;> exact Bool.noConfusion

/-- No `continue` leads to a switch or select. -/
theorem not_exitPlaced_continue (l : String) (targets : List Target) :
    ¬exitPlaced false (⟨some l, false⟩ :: targets) (.jump true (some l)) = true := by
  simp [exitPlaced, jumpPlaced]

theorem exitPlaced_of_false {x : Exit} {targets : List Target}
    (h : exitPlaced false targets x = true) (mayFall : Bool) :
    exitPlaced mayFall targets x = true := by
  cases x with
  | fall => cases h
  | jump k l => exact h
  | next | finished | cut => rfl

/-- An exit that a statement does not catch is one for a statement around it. -/
private theorem exitPlaced_of_cons {x : Exit} {targets : List Target} {label : Option String}
    {isLoop : Bool} (h : exitPlaced false (⟨label, isLoop⟩ :: targets) x = true)
    (hleaves : x.leaves label = false) (hstays : isLoop = true → x.stays label = false) :
    exitPlaced false targets x = true := by
  cases x with
  | fall => cases h
  | next | finished | cut => rfl
  | jump k l =>
    cases l with
    | none => cases k <;> cases isLoop <;> simp_all [exitPlaced, jumpPlaced, Exit.leaves,
        Exit.stays]
    | some l =>
      by_cases hl : label = some l
      · subst hl
        cases k <;> cases isLoop <;> simp_all [exitPlaced, jumpPlaced, Exit.leaves, Exit.stays]
      · simpa [exitPlaced, jumpPlaced, hl] using h

section

variable {α : Type} {V : View α} {t : List α} {x : Exit} {targets : List Target}

private theorem simple_exitPlaced {s : Stmt} (h : V.simple s t x) :
    exitPlaced false [] x = true := by
  rcases h with ⟨-, rfl⟩ | ⟨-, rfl⟩
  · rfl
  · split <;> rfl

/-- The paths of a header do not jump. -/
theorem stmtRuns?_exitPlaced {s : Option Stmt} (hs : s.all Stmt.isSimple = true)
    (h : stmtRuns? V s t x) : exitPlaced false [] x = true := by
  cases s with
  | none =>
    rcases h with ⟨-, rfl⟩ | ⟨-, rfl⟩ <;> rfl
  | some s =>
    cases s with
    | send | expr | incDec | assign => exact simple_exitPlaced h
    | _ => cases hs

private theorem andThen_exitPlaced {R S : Runs α} {mayFall : Bool}
    (hR : ∀ t x, R t x → exitPlaced mayFall targets x = true)
    (hS : ∀ t x, S t x → exitPlaced mayFall targets x = true) (h : R.andThen S t x) :
    exitPlaced mayFall targets x = true := by
  rcases h with ⟨h, -⟩ | ⟨u, v, -, h, -⟩
  · exact hR t x h
  · exact hS v x h

private theorem breakable_exitPlaced {R : Runs α} {label : Option String}
    (hR : ∀ t x, R t x → exitPlaced false (⟨label, false⟩ :: targets) x = true)
    (h : R.breakable label t x) : exitPlaced false targets x = true := by
  rcases h with ⟨h, hx⟩ | ⟨rfl, -⟩
  · exact exitPlaced_of_cons (hR t x h) hx Bool.noConfusion
  · rfl

private theorem falling_exitPlaced {Rs : List (Runs α)}
    (hRs : ∀ R ∈ Rs, ∀ t x, R t x → exitPlaced true targets x = true)
    (h : Runs.falling Rs t x) : exitPlaced false targets x = true := by
  induction Rs generalizing t with
  | nil => cases h
  | cons R Rs ih =>
    rcases h with ⟨h, hx⟩ | ⟨u, v, -, h, -⟩
    · have hplaced := hRs R List.mem_cons_self t x h
      cases x with
      | fall => exact absurd rfl hx
      | jump k l => exact hplaced
      | next | finished | cut => rfl
    · exact ih (fun S hS => hRs S (List.mem_cons_of_mem R hS)) h

private theorem clauses_exitPlaced {Rs : List (Runs α)} {mayPass : Bool}
    (hRs : ∀ R ∈ Rs, ∀ t x, R t x → exitPlaced true targets x = true)
    (h : Runs.clauses mayPass Rs t x) : exitPlaced false targets x = true := by
  rcases h with h | ⟨-, -, rfl⟩
  · induction Rs with
    | nil =>
      obtain ⟨-, rfl⟩ := h
      rfl
    | cons R Rs ih =>
      rcases h with h | h
      · exact falling_exitPlaced hRs h
      · exact ih (fun S hS => hRs S (List.mem_cons_of_mem R hS)) h
  · rfl

private theorem rounds_exitPlaced {label : Option String} {mayStop : Bool} {body post : Runs α}
    (hbody : ∀ t x, body t x → exitPlaced false (⟨label, true⟩ :: targets) x = true)
    (hpost : ∀ t x, post t x → exitPlaced false [] x = true)
    (h : Runs.Rounds label mayStop body post t x) : exitPlaced false targets x = true := by
  induction h with
  | cut | stop | leave => rfl
  | pass hb hl hs => exact exitPlaced_of_cons (hbody _ _ hb) hl fun _ => hs
  | halt _ _ hp _ => exact exitPlaced_of_nil (hpost _ _ hp) false targets
  | again _ _ _ _ ih => exact ih

/-! ### Falling through -/

theorem fallsThrough_cons_cons (s s' : Stmt) (ss : List Stmt) :
    fallsThrough (s :: s' :: ss) = fallsThrough (s' :: ss) := by
  rw [fallsThrough, List.getLast?_cons_cons, fallsThrough]

theorem fallsThrough_singleton (s : Stmt) : fallsThrough [s] = s.isFallthrough := by
  cases s with
  | branch kind l sp => cases kind <;> rfl
  | _ => rfl

theorem mayFall_of_fallsThrough {ss : List Stmt} {mayFall : Bool}
    (hss : stmtsPlaced mayFall targets ss = true) (h : fallsThrough ss = true) :
    mayFall = true := by
  induction ss with
  | nil => cases h
  | cons s ss ih =>
    simp only [stmtsPlaced, Bool.and_eq_true, Bool.or_eq_true] at hss
    cases ss with
    | nil =>
      rw [fallsThrough_singleton] at h
      rcases hss.1 with hs | ⟨⟨hfall, -⟩, -⟩
      · cases s with
        | branch kind l sp => cases kind <;> first | cases hs | cases h
        | _ => cases h
      · exact hfall
    | cons s' ss =>
      rw [fallsThrough_cons_cons] at h
      exact ih hss.2 h

private theorem fallthrough_runs {s : Stmt} (hs : s.isFallthrough = true)
    (h : s.runs V none t x) : x = .cut ∨ x = .fall := by
  cases s with
  | branch kind l sp =>
    cases kind with
    | fallthrough =>
      rcases h with ⟨-, rfl⟩ | ⟨-, rfl⟩
      · exact Or.inl rfl
      · exact Or.inr rfl
    | _ => cases hs
  | _ => cases hs

/-- No path comes to the end of statements that fall through. -/
theorem not_stmtsRuns_next {ss : List Stmt} (hss : fallsThrough ss = true) (t : List α) :
    ¬stmtsRuns V ss t .next := by
  induction ss generalizing t with
  | nil => cases hss
  | cons s ss ih =>
    rintro (⟨-, h⟩ | ⟨u, v, hu, hv, -⟩)
    · exact h rfl
    · cases ss with
      | nil =>
        rw [fallsThrough_singleton] at hss
        rcases fallthrough_runs hss hu with h | h <;> cases h
      | cons s' ss =>
        rw [fallsThrough_cons_cons] at hss
        exact ih hss v hv

/-! ### How paths leave a part -/

/-- The paths through a statement leave it only for a statement around it. -/
private def Contained (V : View α) (s : Stmt) : Prop :=
  ∀ targets label t x, s.placed targets label = true → s.runs V label t x →
    exitPlaced false targets x = true

private theorem stmts_contained {ss : List Stmt} (ih : ∀ s ∈ ss, Contained V s) {mayFall : Bool}
    (hss : stmtsPlaced mayFall targets ss = true) (h : stmtsRuns V ss t x) :
    exitPlaced (fallsThrough ss) targets x = true := by
  induction ss generalizing t with
  | nil => rcases h with ⟨-, rfl⟩ | ⟨-, rfl⟩ <;> rfl
  | cons s ss ihs =>
    simp only [stmtsPlaced, Bool.and_eq_true, Bool.or_eq_true, List.isEmpty_iff] at hss
    rcases h with ⟨h, hx⟩ | ⟨u, v, -, h, -⟩
    · rcases hss.1 with hs | ⟨⟨-, hs⟩, rfl⟩
      · exact exitPlaced_of_false (ih s List.mem_cons_self _ _ t x hs h) _
      · rw [fallsThrough_singleton, hs]
        rcases fallthrough_runs hs h with rfl | rfl <;> rfl
    · have hrest := ihs (fun r hr => ih r (List.mem_cons_of_mem s hr)) hss.2 h
      cases ss with
      | nil => exact exitPlaced_of_false hrest _
      | cons s' ss => rwa [fallsThrough_cons_cons]

private theorem stmt?_contained {s : Option Stmt} (ih : ∀ r ∈ s, Contained V r)
    (hs : stmtPlaced? targets s = true) (h : stmtRuns? V s t x) :
    exitPlaced false targets x = true := by
  cases s with
  | none => rcases h with ⟨-, rfl⟩ | ⟨-, rfl⟩ <;> rfl
  | some s => exact ih s rfl _ _ t x hs h

private theorem block_contained {b : Block} (ih : ∀ s ∈ b.stmts, Contained V s)
    (hb : b.placed targets = true) (h : b.runs V t x) : exitPlaced false targets x = true := by
  obtain ⟨ss, sp⟩ := b
  have hplaced := stmts_contained ih hb h
  cases hfall : fallsThrough ss with
  | false => rwa [hfall] at hplaced
  | true => cases mayFall_of_fallsThrough hb hfall

private theorem cases_contained {cs : List CaseClause} (ih : ∀ c ∈ cs, ∀ s ∈ c.body, Contained V s)
    {mayFall : Bool} (hcs : casesPlaced mayFall targets cs = true) :
    ∀ R ∈ casesRuns V cs, ∀ t x, R t x → exitPlaced true targets x = true := by
  have hbody : ∀ (body : List Stmt) (mayFall : Bool), (∀ s ∈ body, Contained V s) →
      stmtsPlaced mayFall targets body = true → ∀ t x, stmtsRuns V body t x →
      exitPlaced true targets x = true := by
    intro body mayFall ihb hb t x h
    have hplaced := stmts_contained ihb hb h
    cases hfall : fallsThrough body with
    | false => exact exitPlaced_of_false (hfall ▸ hplaced) true
    | true => rwa [hfall] at hplaced
  induction cs with
  | nil => exact fun R hR => absurd hR List.not_mem_nil
  | cons c cs ihc =>
    have hrest := fun h => ihc (fun d hd => ih d (List.mem_cons_of_mem c hd)) h
    cases c with
    | case xs body sp | default body sp =>
      simp only [casesPlaced, Bool.and_eq_true] at hcs
      intro R hR
      rcases List.mem_cons.mp hR with rfl | hR
      · exact hbody body _ (ih _ List.mem_cons_self) hcs.1
      · exact hrest hcs.2 R hR

private theorem comms_contained {cs : List CommClause}
    (ih : ∀ c ∈ cs, (∀ s ∈ c.comm, Contained V s) ∧ ∀ s ∈ c.body, Contained V s)
    (hcs : commsPlaced targets cs = true) :
    ∀ R ∈ commsRuns V cs, ∀ t x, R t x → exitPlaced false targets x = true := by
  induction cs with
  | nil => exact fun R hR => absurd hR List.not_mem_nil
  | cons c cs ihc =>
    obtain ⟨comm, body, sp⟩ := c
    simp only [commsPlaced, Bool.and_eq_true] at hcs
    intro R hR
    rcases List.mem_cons.mp hR with rfl | hR
    · intro t x h
      refine andThen_exitPlaced (fun t x h => ?_) (fun t x h => ?_) h
      · exact exitPlaced_of_nil (stmtRuns?_exitPlaced hcs.1.1 h) false targets
      · exact block_contained (ih _ List.mem_cons_self).2 (b := ⟨body, sp⟩) hcs.1.2 h
    · exact ihc (fun d hd => ih d (List.mem_cons_of_mem _ hd)) hcs.2 R hR

private theorem stmt_contained (s : Stmt) : Contained V s := by
  induction s using Stmt.partsInduction with
  | decl | expr | send | incDec | assign | go | defer | returns | empty =>
    exact fun targets _ _ _ _ h => exitPlaced_of_nil (simple_exitPlaced h) false targets
  | labeled l s sp ih => exact fun targets _ t x hs h => ih targets _ t x hs h
  | branch kind l sp =>
    intro targets label t x hs h
    cases kind with
    | breakTo | continueTo =>
      rcases h with ⟨-, rfl⟩ | ⟨-, rfl⟩
      · rfl
      · exact hs
    | goto | fallthrough => cases hs
  | block b ih => exact fun targets _ _ _ hs h => block_contained ih hs h
  | ifElse init c b els sp hi hb he =>
    intro targets label t x hs h
    simp only [Stmt.placed, Bool.and_eq_true] at hs
    refine andThen_exitPlaced (fun t x h => ?_) (fun t x h => ?_) h
    · exact exitPlaced_of_nil (stmtRuns?_exitPlaced hs.1.1.1 h) false targets
    · rcases h with h | h
      · exact block_contained hb hs.1.1.2 h
      · exact stmt?_contained he hs.2 h
  | switch init tag cs sp hi hc | typeSwitch init id subject cs sp hi hc =>
    intro targets label t x hs h
    simp only [Stmt.placed, Bool.and_eq_true] at hs
    refine andThen_exitPlaced (fun t x h => ?_) (fun t x h => ?_) h
    · exact exitPlaced_of_nil (stmtRuns?_exitPlaced hs.1 h) false targets
    · exact breakable_exitPlaced (fun t x => clauses_exitPlaced (cases_contained hc hs.2)) h
  | select cs sp hc =>
    intro targets label t x hs h
    refine breakable_exitPlaced (fun t x h => ?_) h
    rcases h with ⟨-, rfl⟩ | ⟨R, hR, h⟩
    · rfl
    · exact comms_contained hc hs R hR t x h
  | loop init c post b sp hi hp hb =>
    intro targets label t x hs h
    simp only [Stmt.placed, Bool.and_eq_true] at hs
    refine andThen_exitPlaced (fun t x h => ?_) (fun t x h => ?_) h
    · exact exitPlaced_of_nil (stmtRuns?_exitPlaced hs.1.1 h) false targets
    · exact rounds_exitPlaced (fun t x => block_contained hb hs.2)
        (fun t x => stmtRuns?_exitPlaced hs.1.2) h
  | range k v d x b sp hb =>
    intro targets label t x hs h
    exact rounds_exitPlaced (fun t x => block_contained hb hs)
      (fun t x => stmtRuns?_exitPlaced (V := V) (s := none) rfl) h

/-- A path leaves a statement only for a statement around it. -/
theorem Stmt.exitPlaced_of_runs {s : Stmt} {label : Option String}
    (hs : s.placed targets label = true) (h : s.runs V label t x) :
    exitPlaced false targets x = true :=
  stmt_contained s targets label t x hs h

/-- A path leaves the clauses of a switch only for the switch or a statement around it. -/
theorem clausesExitPlaced_of_runs {cs : List CaseClause} {mayFall mayPass : Bool}
    (hcs : casesPlaced mayFall targets cs = true) (h : Runs.clauses mayPass (casesRuns V cs) t x) :
    exitPlaced false targets x = true :=
  clauses_exitPlaced (cases_contained (fun _ _ s _ => stmt_contained s) hcs) h

/-- A path leaves the clauses of a select only for the select or a statement around it. -/
theorem commsExitPlaced_of_runs {cs : List CommClause} (hcs : commsPlaced targets cs = true)
    (h : Runs.oneOf (commsRuns V cs) t x) : exitPlaced false targets x = true := by
  rcases h with ⟨-, rfl⟩ | ⟨R, hR, h⟩
  · rfl
  · exact comms_contained (fun _ _ => ⟨fun s _ => stmt_contained s, fun s _ => stmt_contained s⟩)
      hcs R hR t x h

/-- A path leaves statements only for a statement around them, or falls through at their end. -/
theorem stmtsExitPlaced_of_runs {ss : List Stmt} {mayFall : Bool}
    (hss : stmtsPlaced mayFall targets ss = true) (h : stmtsRuns V ss t x) :
    exitPlaced (fallsThrough ss) targets x = true :=
  stmts_contained (fun s _ => stmt_contained s) hss h

end

end ServiceSplit
