import ServiceSplit.Proofs.Sends.Clauses
import ServiceSplit.Proofs.Sends.Loop
import ServiceSplit.Proofs.Sends.Literals

/-!
# The check for second sends

The check follows a body exactly as its paths go, with one exception. Behind an `if` whose header is
a call that never returns stand no paths, and none is followed into its branches. Yet the headers of
an `else if` behind it are looked at all the same. These sends are *dead*: no path makes them, but
they can be reported.

## Main definitions

* `deadSends`: the sends that no path makes, but that can be reported.
* `ExactCheck`: the check refuses a body exactly if a path sends twice.

## Main results

* `checkSingleSend_spec`: what the check reports.
* `checkSingleSend_exact`: the check is exact for bodies without dead sends.
-/

namespace ServiceSplit

/-- What the check for second sends sees of a path: the sends on some channels. -/
def sendView (channels : List String) : View Sends.Send where
  shows
    | .send chan _ span =>
      match chan.asName with
      | some name => if channels.contains name then [(name, span)] else []
      | none => []
    | _ => []
  ends
    | .expr x => x.isTerminatingCall
    | .returns .. => true
    | _ => false

section

variable (channels : List String)

mutual

/-- The sends in the header of an `else if`, and of those behind it. -/
def chainSends : Stmt → List Sends.Send
  | .ifElse init _ _ els _ => (init.map (sendView channels).shows).getD [] ++ elseSends els
  | _ => []

/-- The sends in the headers of what stands behind an `else`. -/
def elseSends : Option Stmt → List Sends.Send
  | none => []
  | some s => chainSends s

end

/-- The sends behind an `if` whose header never returns, at the event that enters it. -/
def Event.deadSends : Event → List Sends.Send
  | .enter (.ifElse (some (.expr x)) _ _ els _) =>
    if x.isTerminatingCall then elseSends channels els else []
  | _ => []

/-- The sends in the headers of an `else if` behind an `if` whose own header never returns. -/
def deadSends (body : List Stmt) : List Sends.Send :=
  (stmtsEvents {} body).flatMap (Event.deadSends channels)

end

namespace Sends

variable {dead : List Send} {channels : List String} {C : Reached} {p : Path}

/-- Events of a part without function literals, whose dead sends are in a list. -/
structure Fit (dead : List Send) (channels : List String) (events : List Event) : Prop where
  literalFree : LiteralFree events
  dead : ∀ e ∈ events, e.deadSends channels ⊆ dead

theorem fit_append (events events' : List Event) :
    Fit dead channels (events ++ events') ↔
      Fit dead channels events ∧ Fit dead channels events' := by
  constructor
  · rintro ⟨hl, hd⟩
    obtain ⟨hl, hl'⟩ := (literalFree_append _ _).mp hl
    obtain ⟨hd, hd'⟩ := List.forall_mem_append.mp hd
    exact ⟨⟨hl, hd⟩, hl', hd'⟩
  · rintro ⟨h, h'⟩
    exact ⟨(literalFree_append _ _).mpr ⟨h.1, h'.1⟩, List.forall_mem_append.mpr ⟨h.2, h'.2⟩⟩

theorem fit_cons (e : Event) (events : List Event) :
    Fit dead channels (e :: events) ↔
      (e.opensLit = false ∧ e.deadSends channels ⊆ dead) ∧ Fit dead channels events := by
  constructor
  · rintro ⟨hl, hd⟩
    obtain ⟨hl, hl'⟩ := (literalFree_cons _ _).mp hl
    obtain ⟨hd, hd'⟩ := List.forall_mem_cons.mp hd
    exact ⟨⟨hl, hd⟩, hl', hd'⟩
  · rintro ⟨h, h'⟩
    exact ⟨(literalFree_cons _ _).mpr ⟨h.1, h'.1⟩, List.forall_mem_cons.mpr ⟨h.2, h'.2⟩⟩

/-- A walk follows the paths through a statement, wherever it is placed. -/
def FollowsStmt (dead : List Send) (channels : List String) (s : Stmt) : Prop :=
  ∀ targets label C p, s.placed targets label = true → Fit dead channels (s.events {}) →
    Covers [p] C → p.ended = false →
      Follows dead C (s.runs (sendView channels) label) .next (stmt channels label s p)

/-! ### Statements one after another -/

theorem fallsThrough_cons_of_placed {s : Stmt} {ss : List Stmt} {targets : List Target}
    (hs : s.placed targets none = true) : fallsThrough (s :: ss) = fallsThrough ss := by
  cases ss with
  | cons s' ss => exact fallsThrough_cons_cons s s' ss
  | nil =>
    rw [fallsThrough_singleton]
    cases s with
    | branch kind l sp =>
      cases kind with
      | fallthrough => cases hs
      | _ => rfl
    | _ => rfl

theorem stmts_of_ended (ss : List Stmt) (hp : p.ended = true) :
    stmts channels ss p = pure p := by
  cases ss with
  | nil => rfl
  | cons s ss => rw [stmts, if_pos hp]

theorem fallthrough_andThen_skip {α : Type} :
    (Runs.step [] .fall).andThen .skip = (Runs.step [] .fall : Runs α) := by
  funext t x
  refine propext ⟨?_, ?_⟩
  · rintro (⟨h, -⟩ | ⟨u, v, h | h, -⟩)
    · exact h
    · cases h.2
    · cases h.2
  · rintro (⟨rfl, rfl⟩ | ⟨rfl, rfl⟩)
    · exact Or.inl ⟨Or.inl ⟨rfl, rfl⟩, Exit.noConfusion⟩
    · exact Or.inl ⟨Or.inr ⟨rfl, rfl⟩, Exit.noConfusion⟩

/-- A walk follows statements if it follows each of them. -/
theorem stmts_follows {ss : List Stmt} (ih : ∀ s ∈ ss, FollowsStmt dead channels s)
    {mayFall : Bool} {targets : List Target} (hss : stmtsPlaced mayFall targets ss = true)
    (hfit : Fit dead channels (stmtsEvents {} ss)) (hp : Covers [p] C) :
    Follows dead C (stmtsRuns (sendView channels) ss) (clauseExit ss) (stmts channels ss p) := by
  induction ss generalizing C p with
  | nil => exact .quiet hp false
  | cons s ss ihs =>
    by_cases hended : p.ended = true
    · rw [stmts_of_ended _ hended]
      exact .of_empty (hp.not_of_ended hended) (.pure ⟨hended, rfl⟩)
    simp only [stmtsPlaced, Bool.and_eq_true, Bool.or_eq_true, List.isEmpty_iff] at hss
    rw [stmtsEvents, fit_append] at hfit
    rw [stmts, if_neg hended]
    rcases hss.1 with hs | ⟨⟨-, hs⟩, rfl⟩
    · have hexit : clauseExit (s :: ss) = clauseExit ss := by
        rw [clauseExit, clauseExit, fallsThrough_cons_of_placed hs]
      rw [hexit]
      refine .andThen (ih s List.mem_cons_self targets none C p hs hfit.1 hp
        (eq_false_of_ne_true hended)) (fun q hq => ?_) (stmtsRuns_cut _ ss) fun hout t ht => ?_
      · exact ihs (fun r hr => ih r (List.mem_cons_of_mem s hr)) hss.2 hfit.2 hq
      · rw [clauseExit] at hout ht
        split at hout
        · rename_i hfalls
          rw [if_pos hfalls] at ht
          cases s.exitPlaced_of_runs hs ht
        · exact hout rfl
    · cases s with
      | branch kind l sp =>
        cases kind with
        | fallthrough =>
          rw [stmtsRuns, stmtsRuns, Stmt.runs, fallthrough_andThen_skip]
          exact .fall hp
        | _ => cases hs
      | _ => cases hs

private theorem stmt?_follows {s : Option Stmt} (ih : ∀ r ∈ s, FollowsStmt dead channels r)
    {targets : List Target} (hs : stmtPlaced? targets s = true)
    (hfit : Fit dead channels (stmtEvents? {} s)) (hp : Covers [p] C) (hlive : p.ended = false) :
    Follows dead C (stmtRuns? (sendView channels) s) .next (stmt? channels s p) := by
  cases s with
  | none => exact .quiet hp false
  | some s => exact ih s rfl targets none C p hs hfit hp hlive

theorem stmtPlaced?_of_isSimple {s : Option Stmt} (hs : s.all Stmt.isSimple = true)
    (targets : List Target) : stmtPlaced? targets s = true := by
  cases s with
  | none => rfl
  | some s =>
    cases s with
    | send | expr | incDec | assign => rfl
    | _ => cases hs

private theorem block_follows {b : Block} (ih : ∀ s ∈ b.stmts, FollowsStmt dead channels s)
    {targets : List Target} (hb : b.placed targets = true)
    (hfit : Fit dead channels (b.events {})) (hp : Covers [p] C) :
    Follows dead C (b.runs (sendView channels)) .next (block channels b p) := by
  obtain ⟨ss, sp⟩ := b
  have hfollows := stmts_follows ih hb hfit hp
  have hfalls : fallsThrough ss = false :=
    eq_false_of_ne_true fun hfalls => Bool.noConfusion (mayFall_of_fallsThrough hb hfalls)
  rwa [clauseExit, hfalls] at hfollows

/-! ### Headers that never return -/

/-- A walk where no path comes fails at dead sends only, and comes to nothing. -/
private abbrev Inert (dead : List Send) (m : Walk Path) : Prop :=
  Spec m (fun e => (e.channel, e.span) ∈ dead) fun q js => q.ended = true ∧ js = []

private theorem record_inert {channel : String} {span : Span} (h : (channel, span) ∈ dead)
    (hp : p.ended = true) : Inert dead (record channel span p) := by
  intro log
  by_cases hc : channel ∈ p.sent
  · simp only [record, List.contains_iff_mem.mpr hc, ↓reduceIte]
    exact h
  · simp only [record, List.contains_iff_mem, hc, ↓reduceIte]
    exact ⟨[], rfl, hp, rfl⟩

private theorem header_inert {init : Option Stmt} (hinit : init.all Stmt.isSimple = true)
    (hlit : LiteralFree (stmtEvents? {} init))
    (hdead : (init.map (sendView channels).shows).getD [] ⊆ dead) (hp : p.ended = true) :
    Inert dead (stmt? channels init p) := by
  cases init with
  | none => exact .pure ⟨hp, rfl⟩
  | some s =>
    cases s with
    | send chan value sp =>
      simp only [stmtEvents?, Stmt.events, literalFree_cons, literalFree_append] at hlit
      rw [stmt?, stmt, expr_eq_pure hlit.1.2.1, pure_bind, expr_eq_pure hlit.1.2.2, pure_bind]
      simp only [Option.map_some, Option.getD_some, sendView] at hdead
      cases hname : chan.asName with
      | none => exact .pure ⟨hp, rfl⟩
      | some name =>
        simp only [hname] at hdead ⊢
        split_ifs at hdead ⊢ with hwatched
        · exact record_inert (hdead List.mem_cons_self) hp
        · exact .pure ⟨hp, rfl⟩
    | expr x =>
      simp only [stmtEvents?, Stmt.events, literalFree_cons, literalFree_append] at hlit
      rw [stmt?, stmt, expr_eq_pure hlit.1.2, pure_bind]
      refine .pure ⟨?_, rfl⟩
      split
      · rfl
      · exact hp
    | incDec x inc sp =>
      simp only [stmtEvents?, Stmt.events, literalFree_cons, literalFree_append] at hlit
      rw [stmt?, stmt, expr_eq_pure hlit.1.2]
      exact .pure ⟨hp, rfl⟩
    | assign lhs op rhs sp =>
      simp only [stmtEvents?, Stmt.events, literalFree_cons, literalFree_append] at hlit
      rw [stmt?, stmt, exprs_eq_pure hlit.1.2.1, pure_bind, exprs_eq_pure hlit.1.2.2]
      exact .pure ⟨hp, rfl⟩
    | _ => cases hinit

private theorem join_ended {q r : Path} (hq : q.ended = true) (hr : r.ended = true) :
    (Path.join [q, r]).ended = true := by
  simp [Path.join, Path.closed, hq, hr]

private theorem branch_inert (s : Stmt) : ∀ targets p, s.isBranch = true →
    s.placed targets none = true → LiteralFree (s.events {}) → chainSends channels s ⊆ dead →
    p.ended = true → Inert dead (stmt channels none s p) := by
  induction s using Stmt.partsInduction with
  | block b _ =>
    intro targets p _ _ _ _ hp
    obtain ⟨ss, sp⟩ := b
    rw [stmt, block, stmts_of_ended _ hp]
    exact .pure ⟨hp, rfl⟩
  | ifElse init cond b els sp _ _ he =>
    intro targets p _ hs hlit hdead hp
    obtain ⟨ss, bsp⟩ := b
    simp only [Stmt.placed, Bool.and_eq_true] at hs
    simp only [Stmt.events, literalFree_cons, literalFree_append] at hlit
    rw [chainSends, List.append_subset] at hdead
    rw [stmt]
    refine (header_inert hs.1.1.1 hlit.1.2.1.1.1 hdead.1 hp).bind fun q js hq => ?_
    obtain ⟨hq, rfl⟩ := hq
    rw [expr_eq_pure hlit.1.2.1.1.2, pure_bind, block, stmts_of_ended _ hq, pure_bind]
    have hels : Inert dead (stmt? channels els q) := by
      cases els with
      | none => exact .pure ⟨hq, rfl⟩
      | some s => exact he s rfl targets q hs.1.2 hs.2 hlit.1.2.2 hdead.2 hq
    exact hels.bind_pure fun r ks hr => ⟨join_ended hq hr.1, by simp [hr.2]⟩
  | _ => intro _ _ h; cases h

private theorem else_inert {els : Option Stmt} {targets : List Target}
    (hbranch : els.all Stmt.isBranch = true) (hplaced : stmtPlaced? targets els = true)
    (hlit : LiteralFree (stmtEvents? {} els)) (hdead : elseSends channels els ⊆ dead)
    (hp : p.ended = true) : Inert dead (stmt? channels els p) := by
  cases els with
  | none => exact .pure ⟨hp, rfl⟩
  | some s => exact branch_inert s targets p hbranch hplaced hlit hdead hp

/-- A header that no path passes is a call that never returns. -/
private theorem exists_terminating {init : Option Stmt} (hinit : init.all Stmt.isSimple = true)
    (hnone : ∀ t, ¬stmtRuns? (sendView channels) init t .next) :
    ∃ x, init = some (.expr x) ∧ x.isTerminatingCall = true := by
  cases init with
  | none => exact absurd (Or.inr ⟨rfl, rfl⟩) (hnone [])
  | some s =>
    cases s with
    | send | incDec | assign => exact absurd (Or.inr ⟨rfl, rfl⟩) (hnone _)
    | expr x =>
      refine ⟨x, rfl, ?_⟩
      by_contra hx
      refine hnone [] (Or.inr ⟨rfl, ?_⟩)
      exact (if_neg hx).symm
    | _ => cases hinit

/-! ### Statements -/

private theorem casesPlaced_mem {cs : List CaseClause} {mayFall : Bool} {targets : List Target}
    (hcs : casesPlaced mayFall targets cs = true) (hfit : Fit dead channels (casesEvents {} cs)) :
    ∀ c ∈ cs, (∃ mayFall, stmtsPlaced mayFall targets c.body = true) ∧
      Fit dead channels (stmtsEvents {} c.body) := by
  induction cs with
  | nil => exact fun c hc => absurd hc List.not_mem_nil
  | cons c cs ih =>
    cases c with
    | case xs body sp | default body sp =>
      simp only [casesPlaced, Bool.and_eq_true] at hcs
      simp only [casesEvents, fit_append] at hfit
      refine List.forall_mem_cons.mpr ⟨⟨⟨_, hcs.1⟩, ?_⟩, ih hcs.2 hfit.2⟩
      first | exact hfit.1.2 | exact hfit.1

/-- A walk follows the inside of a switch. -/
private theorem switch_follows {cs : List CaseClause} {mayFall : Bool} {targets : List Target}
    {label : Option String} (hc : ∀ c ∈ cs, ∀ s ∈ c.body, FollowsStmt dead channels s)
    (hcs : casesPlaced mayFall (⟨label, false⟩ :: targets) cs = true)
    (hfit : Fit dead channels (casesEvents {} cs)) (hp : Covers [p] C) :
    Follows dead C ((Runs.clauses (!cs.any CaseClause.isDefault)
        (casesRuns (sendView channels) cs)).breakable label) .next (choice label do
      let exits ← cases channels p cs none
      return .join (if cs.any CaseClause.isDefault then exits else exits ++ [p])) := by
  have hclause : ∀ c ∈ cs, FollowsClause dead channels (sendView channels) c.body := by
    intro c hmem
    obtain ⟨⟨_, hplaced⟩, hfit⟩ := casesPlaced_mem hcs hfit c hmem
    refine ⟨fun C p hp => stmts_follows (hc c hmem) hplaced hfit hp, fun hfalls t ht => ?_⟩
    have hexit := stmtsExitPlaced_of_runs hplaced ht
    rw [hfalls] at hexit
    cases hexit
  refine .choice (.clauses hclause hcs hfit.literalFree hp) fun t l hl ht => ?_
  subst hl
  exact not_exitPlaced_continue l targets (clausesExitPlaced_of_runs hcs ht)

private theorem commsPlaced_mem {cs : List CommClause} {targets : List Target}
    (hcs : commsPlaced targets cs = true) (hfit : Fit dead channels (commsEvents {} cs)) :
    ∀ c ∈ cs, (c.comm.all Stmt.isSimple = true ∧ stmtsPlaced false targets c.body = true) ∧
      Fit dead channels (stmtEvents? {} c.comm) ∧ Fit dead channels (stmtsEvents {} c.body) := by
  induction cs with
  | nil => exact fun c hc => absurd hc List.not_mem_nil
  | cons c cs ih =>
    obtain ⟨comm, body, sp⟩ := c
    simp only [commsPlaced, Bool.and_eq_true] at hcs
    simp only [commsEvents, fit_append] at hfit
    exact List.forall_mem_cons.mpr ⟨⟨hcs.1, hfit.1⟩, ih hcs.2 hfit.2⟩

/-- A walk follows a select. -/
private theorem select_follows {cs : List CommClause} {targets : List Target}
    {label : Option String} (hc : ∀ c ∈ cs, (∀ s ∈ c.comm, FollowsStmt dead channels s) ∧
      ∀ s ∈ c.body, FollowsStmt dead channels s)
    (hcs : commsPlaced (⟨label, false⟩ :: targets) cs = true)
    (hfit : Fit dead channels (commsEvents {} cs)) (hp : Covers [p] C) (hlive : p.ended = false) :
    Follows dead C ((Runs.oneOf (commsRuns (sendView channels) cs)).breakable label) .next
      (choice label do return .join (← comms channels p cs)) := by
  refine .choice (.comms fun c hmem => ?_) fun t l hl ht => ?_
  · obtain ⟨⟨hcomm, hbody⟩, hfc, hfb⟩ := commsPlaced_mem hcs hfit c hmem
    refine .andThen (stmt?_follows (hc c hmem).1 (stmtPlaced?_of_isSimple hcomm targets) hfc
      hp hlive)
      (fun q hq => ?_) (stmtsRuns_cut _ _) fun h => absurd rfl h
    exact block_follows (b := ⟨c.body, c.span⟩) (hc c hmem).2 hbody hfb hq
  · subst hl
    exact not_exitPlaced_continue l targets (commsExitPlaced_of_runs hcs ht)

/-- A walk follows the paths through a statement. -/
theorem followsStmt (s : Stmt) : FollowsStmt dead channels s := by
  induction s using Stmt.partsInduction with
  | decl d =>
    intro targets label C p _ hfit hp _
    simp only [Stmt.events, fit_cons, fit_append] at hfit
    rw [stmt, genDecl_eq_pure hfit.1.2.literalFree]
    exact .quiet hp false
  | labeled l s sp ih =>
    intro targets label C p hs hfit hp hlive
    simp only [Stmt.events, fit_cons, fit_append] at hfit
    exact ih targets (some l.name) C p hs hfit.1.2 hp hlive
  | expr x =>
    intro targets label C p _ hfit hp _
    simp only [Stmt.events, fit_cons, fit_append] at hfit
    rw [stmt, expr_eq_pure hfit.1.2.literalFree, pure_bind]
    exact .quiet hp x.isTerminatingCall
  | send chan value sp =>
    intro targets label C p _ hfit hp hlive
    simp only [Stmt.events, fit_cons, fit_append] at hfit
    rw [stmt, expr_eq_pure hfit.1.2.1.literalFree, pure_bind, expr_eq_pure hfit.1.2.2.literalFree,
      pure_bind, Stmt.runs, View.simple]
    simp only [sendView]
    cases chan.asName with
    | none => exact .quiet hp false
    | some name =>
      by_cases hname : channels.contains name = true
      · simp only [hname, ↓reduceIte]
        exact .record hp hlive name sp
      · simp only [hname]
        exact .quiet hp false
  | incDec x inc sp =>
    intro targets label C p _ hfit hp _
    simp only [Stmt.events, fit_cons, fit_append] at hfit
    rw [stmt, expr_eq_pure hfit.1.2.literalFree]
    exact .quiet hp false
  | assign lhs op rhs sp =>
    intro targets label C p _ hfit hp _
    simp only [Stmt.events, fit_cons, fit_append] at hfit
    rw [stmt, exprs_eq_pure hfit.1.2.1.literalFree, pure_bind, exprs_eq_pure hfit.1.2.2.literalFree]
    exact .quiet hp false
  | go call sp | defer call sp =>
    intro targets label C p _ hfit hp _
    simp only [Stmt.events, fit_cons, fit_append] at hfit
    rw [stmt, expr_eq_pure hfit.1.2.literalFree]
    exact .quiet hp false
  | returns xs sp =>
    intro targets label C p _ hfit hp _
    simp only [Stmt.events, fit_cons, fit_append] at hfit
    rw [stmt, exprs_eq_pure hfit.1.2.literalFree, pure_bind]
    exact .quiet hp true
  | branch kind l sp =>
    intro targets label C p hs _ hp _
    cases kind with
    | breakTo => exact .jump hp false l
    | continueTo => exact .jump hp true l
    | goto | fallthrough => cases hs
  | block b ih =>
    intro targets label C p hs hfit hp _
    simp only [Stmt.events, fit_cons, fit_append] at hfit
    exact block_follows ih hs hfit.1.2 hp
  | ifElse init cond b els sp hi hb he =>
    intro targets label C p hs hfit hp hlive
    simp only [Stmt.placed, Bool.and_eq_true] at hs
    simp only [Stmt.events, fit_cons, fit_append] at hfit
    obtain ⟨⟨⟨-, hdead⟩, ⟨⟨hfi, hfc⟩, hfb⟩, hfe⟩, -⟩ := hfit
    rw [stmt]
    refine .andThen (stmt?_follows hi (stmtPlaced?_of_isSimple hs.1.1.1 targets) hfi hp hlive)
      (fun q hq => ?_) (Or.inl ?_) fun h => absurd rfl h
    · rw [expr_eq_pure hfc.literalFree, pure_bind]
      refine .either (block_follows hb hs.1.1.2 hfb hq) ?_
      by_cases hended : q.ended = true
      · have hnone := hq.not_of_ended hended
        obtain ⟨s, hs₀⟩ := hp.singleton_live.mp hlive
        obtain ⟨x, rfl, hx⟩ := exists_terminating hs.1.1.1 fun t ht => hnone _ ⟨s, t, hs₀, ht, rfl⟩
        rw [Event.deadSends, if_pos hx] at hdead
        exact .of_empty hnone (else_inert hs.1.2 hs.2 hfe.literalFree hdead hended)
      · exact stmt?_follows he hs.2 hfe hq (eq_false_of_ne_true hended)
    · rw [b.runs_eq]
      exact stmtsRuns_cut _ _
  | switch init tag cs sp hi hc =>
    intro targets label C p hs hfit hp hlive
    simp only [Stmt.placed, Bool.and_eq_true] at hs
    simp only [Stmt.events, fit_cons, fit_append] at hfit
    obtain ⟨⟨-, ⟨hfi, hft⟩, hfc⟩, -⟩ := hfit
    rw [stmt]
    refine .andThen (stmt?_follows hi (stmtPlaced?_of_isSimple hs.1 targets) hfi hp hlive)
      (fun q hq => ?_) (breakable_clauses_cut label _ _) fun h => absurd rfl h
    rw [expr?_eq_pure hft.literalFree, pure_bind]
    exact switch_follows hc hs.2 hfc hq
  | typeSwitch init id subject cs sp hi hc =>
    intro targets label C p hs hfit hp hlive
    simp only [Stmt.placed, Bool.and_eq_true] at hs
    simp only [Stmt.events, fit_cons, fit_append] at hfit
    obtain ⟨⟨-, ⟨hfi, hfx⟩, hfc⟩, -⟩ := hfit
    rw [stmt]
    refine .andThen (stmt?_follows hi (stmtPlaced?_of_isSimple hs.1 targets) hfi hp hlive)
      (fun q hq => ?_) (breakable_clauses_cut label _ _) fun h => absurd rfl h
    rw [expr_eq_pure hfx.literalFree, pure_bind]
    exact switch_follows hc hs.2 hfc hq
  | select cs sp hc =>
    intro targets label C p hs hfit hp hlive
    simp only [Stmt.events, fit_cons, fit_append] at hfit
    exact select_follows hc hs hfit.1.2 hp hlive
  | loop init cond post b sp hi hpost hb =>
    intro targets label C p hs hfit hp hlive
    simp only [Stmt.placed, Bool.and_eq_true] at hs
    simp only [Stmt.events, fit_cons, fit_append] at hfit
    obtain ⟨⟨-, ⟨⟨hfi, hfc⟩, hfp⟩, hfb⟩, -⟩ := hfit
    rw [stmt]
    refine .andThen (stmt?_follows hi (stmtPlaced?_of_isSimple hs.1.1 targets) hfi hp hlive)
      (fun q hq => ?_) .cut fun h => absurd rfl h
    rw [expr?_eq_pure hfc.literalFree, pure_bind]
    refine .loop (fun C q hq => block_follows hb hs.2 hfb hq) (fun C q hq hlive => ?_)
      (stmtRuns?_cut _ post) (fun t k l ht => ?_) hq
    · exact stmt?_follows hpost (stmtPlaced?_of_isSimple hs.1.2 targets) hfp hq hlive
    · exact not_exitPlaced_nil_jump k l (stmtRuns?_exitPlaced hs.1.2 ht)
  | range k v d x b sp hb =>
    intro targets label C p hs hfit hp _
    simp only [Stmt.events, fit_cons, fit_append] at hfit
    obtain ⟨⟨-, ⟨⟨-, -⟩, hfx⟩, hfb⟩, -⟩ := hfit
    rw [stmt, expr_eq_pure hfx.literalFree, pure_bind]
    refine .loop (fun C q hq => block_follows hb hs hfb hq) (fun C q hq _ => .quiet hq false)
      (Or.inl ⟨rfl, rfl⟩) (fun t k l ht => ?_) hp
    rcases ht with ⟨-, h⟩ | ⟨-, h⟩ <;> cases h
  | empty sp => exact fun _ _ _ _ _ _ hp _ => .quiet hp false

end Sends

/-! ### The check -/

open Sends

variable {body : List Stmt} {channels : List String}

/-- The check accepts a body if and only if no path sends twice on a channel, and otherwise reports
the second send on its channel of some path. -/
def ExactCheck (body : List Stmt) (channels : List String) : Prop :=
  (checkSingleSend body channels = .ok () ↔
    ∀ t x, stmtsRuns (sendView channels) body t x → (t.map Prod.fst).Nodup) ∧
  ∀ e, checkSingleSend body channels = .error e →
    ∃ t x u v, stmtsRuns (sendView channels) body t x ∧ t = u ++ (e.channel, e.span) :: v ∧
      (u.map Prod.fst).count e.channel = 1

/-- What the check finds out about the paths through a body. -/
theorem checkSingleSend_spec (hplaced : stmtsPlaced false [] body = true)
    (hlit : LiteralFree (stmtsEvents {} body)) :
    (checkSingleSend body channels = .ok () →
      ∀ t x, stmtsRuns (sendView channels) body t x → secondSend? [] t = none) ∧
    ∀ e, checkSingleSend body channels = .error e →
      (∃ t x, stmtsRuns (sendView channels) body t x ∧ secondSend? [] t = some e) ∨
        (e.channel, e.span) ∈ deadSends channels body := by
  have hfit : Fit (deadSends channels body) channels (stmtsEvents {} body) :=
    ⟨hlit, fun e he d hd => List.mem_flatMap.mpr ⟨e, he, hd⟩⟩
  have hstart : Covers [{}] fun s => s = [] := ⟨by simp, by simp⟩
  have hwalk := stmts_follows (fun s _ => followsStmt s) hplaced hfit hstart {}
  have hcheck : checkSingleSend body channels =
      (stmts channels body {} {}).map fun _ => () := by
    simp only [checkSingleSend, StateT.run, bind, Except.bind, pure, Except.pure]
    cases stmts channels body {} {} <;> rfl
  cases hm : stmts channels body {} {} with
  | error e =>
    rw [hm] at hwalk hcheck
    rw [hcheck]
    refine ⟨fun h => (nomatch h), fun e' he => ?_⟩
    cases he
    rcases hwalk with ⟨_, t, x, rfl, ht, he⟩ | he
    · exact Or.inl ⟨t, x, ht, he⟩
    · exact Or.inr he
  | ok r =>
    rw [hm] at hwalk hcheck
    rw [hcheck]
    obtain ⟨js, -, hknows⟩ := hwalk
    exact ⟨fun _ t x ht => hknows.clean [] t x rfl ht, fun e he => nomatch he⟩

/-- The check of a body whose jumps stand where they may is exact as long as it does not report a
dead send. If no path makes a dead send, then it is exact only as long as it does not. -/
theorem checkSingleSend_exact (hplaced : stmtsPlaced false [] body = true)
    (hlit : LiteralFree (stmtsEvents {} body)) :
    ((∀ e, checkSingleSend body channels = .error e →
        (e.channel, e.span) ∉ deadSends channels body) → ExactCheck body channels) ∧
    ((∀ d ∈ deadSends channels body, ∀ t x, stmtsRuns (sendView channels) body t x → d ∉ t) →
      ExactCheck body channels →
      ∀ e, checkSingleSend body channels = .error e →
        (e.channel, e.span) ∉ deadSends channels body) := by
  obtain ⟨hok, herror⟩ : (checkSingleSend body channels = .ok () → _) ∧ _ :=
    checkSingleSend_spec hplaced hlit
  constructor
  · intro hdead
    have hreport : ∀ e, checkSingleSend body channels = .error e →
        ∃ t x, stmtsRuns (sendView channels) body t x ∧ secondSend? [] t = some e :=
      fun e he => (herror e he).resolve_right (hdead e he)
    refine ⟨⟨fun h t x ht => secondSend?_nil_eq_none_iff.mp (hok h t x ht), fun h => ?_⟩, ?_⟩
    · cases hcheck : checkSingleSend body channels with
      | ok _ => rfl
      | error e =>
        obtain ⟨t, x, ht, he⟩ := hreport e hcheck
        rw [secondSend?_nil_eq_none_iff.mpr (h t x ht)] at he
        cases he
    · intro e he
      obtain ⟨t, x, ht, he⟩ := hreport e he
      obtain ⟨u, v, htuv, hcount⟩ := exists_of_secondSend?_nil he
      exact ⟨t, x, u, v, ht, htuv, hcount⟩
  · intro hnever hexact e he hmem
    obtain ⟨t, x, u, v, ht, rfl, -⟩ := hexact.2 e he
    exact hnever _ hmem _ x ht (List.mem_append_right u List.mem_cons_self)

/-- The check is exact for a loop that sends in each round, where it reports the send. -/
theorem checkSingleSend_exact_loop :
    let body : List Stmt := [.range none none false (.ident (.made "xs"))
      ⟨[.send (.ident (.made "out")) (.lit .int "1" .synthetic) (.range 0 8)], .synthetic⟩
      .synthetic]
    checkSingleSend body ["out"] = .error ⟨"out", .range 0 8⟩ ∧ ExactCheck body ["out"] :=
  ⟨rfl, (checkSingleSend_exact (by decide) (by decide)).1 fun _ _ => List.not_mem_nil⟩

/-- No path passes an `if` whose header never returns. -/
theorem runs_ifElse_of_terminating {x cond : Expr} {b : Block} {els : Option Stmt} {sp : Span}
    {label : Option String} {t : List Send} {y : Exit} (hx : x.isTerminatingCall = true)
    (h : (Stmt.ifElse (some (.expr x)) cond b els sp).runs (sendView channels) label t y) :
    t = [] ∧ y ≠ .next := by
  have hends : (sendView channels).ends (.expr x) = true := hx
  rcases h with ⟨⟨rfl, rfl⟩ | ⟨rfl, rfl⟩, hy⟩ | ⟨u, v, ⟨-, hu⟩ | ⟨-, hu⟩, -⟩
  · exact ⟨rfl, hy⟩
  · exact ⟨rfl, hy⟩
  · cases hu
  · rw [hends] at hu
    cases hu

/-- A send, and a dead send on the same channel: the body
`out <- 1; if panic(0); a {} else if out <- 2; b {}`. -/
def deadHeaderBody : List Stmt :=
  let name (n : String) := Expr.ident (.made n)
  let num (n : String) := Expr.lit .int n .synthetic
  [.send (name "out") (num "1") (.range 0 8),
    .ifElse (some (.expr (.call (name "panic") [num "0"] false .synthetic))) (name "a")
      ⟨[], .synthetic⟩
      (some (.ifElse (some (.send (name "out") (num "2") (.range 35 43))) (name "b")
        ⟨[], .synthetic⟩
        none .synthetic)) .synthetic]

theorem deadHeaderBody_not_exact :
    stmtsPlaced false [] deadHeaderBody = true ∧ LiteralFree (stmtsEvents {} deadHeaderBody) ∧
      ¬ExactCheck deadHeaderBody ["out"] := by
  refine ⟨by decide, by decide, ?_⟩
  rintro ⟨-, hreport⟩
  have hcheck : checkSingleSend deadHeaderBody ["out"] = .error ⟨"out", .range 35 43⟩ := by rfl
  obtain ⟨t, x, u, v, ht, htuv, -⟩ := hreport _ hcheck
  have hshown : ∀ d ∈ t, d = ("out", .range 0 8) := by
    rcases ht with ⟨⟨rfl, -⟩ | ⟨rfl, -⟩, -⟩ | ⟨u, v, ⟨-, h⟩ | ⟨rfl, -⟩, hv, rfl⟩
    · simp
    · simp [sendView, Expr.asName, Expr.asIdent, Ident.made]
    · cases h
    · rcases hv with ⟨h, -⟩ | ⟨u, v, h, -⟩
      · obtain ⟨rfl, -⟩ := runs_ifElse_of_terminating (by decide) h
        simp [sendView, Expr.asName, Expr.asIdent, Ident.made]
      · exact absurd rfl (runs_ifElse_of_terminating (by decide) h).2
  have hmem := hshown ("out", .range 35 43) (htuv ▸ List.mem_append_right u List.mem_cons_self)
  cases hmem

end ServiceSplit
