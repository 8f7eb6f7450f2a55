import ServiceSplit.Proofs.Editor.Unchanged
import ServiceSplit.Proofs.Paths

/-!
# Editors that keep paths

An editor that replaces each statement of one step by at most one such statement, and changes
nothing else, keeps the paths through a function. What the paths show before and after may be looked
at in different views: it is enough that each statement and its replacement show the same.
-/

namespace ServiceSplit

variable {α : Type} {V V' : View α}

/-- Whether a statement is done in one step of a path. -/
def Stmt.isAtomic : Stmt → Bool
  | decl _ | expr _ | send .. | incDec .. | assign .. | go .. | defer .. | returns .. | empty _ =>
    true
  | _ => false

theorem Stmt.runs_of_isAtomic {s : Stmt} (hs : s.isAtomic = true) (label : Option String) :
    s.runs V label = V.simple s := by
  cases s with
  | decl | expr | send | incDec | assign | go | defer | returns | empty => rfl
  | _ => cases hs

/-- The paths through an optional statement with a label. -/
def labeledRuns? (V : View α) (label : Option String) : Option Stmt → Runs α
  | none => .skip
  | some s => s.runs V label

theorem labeledRuns?_none_label (s : Option Stmt) : labeledRuns? V none s = stmtRuns? V s := by
  cases s <;> rfl

theorem Runs.skip_andThen {R : Runs α} (hR : R [] .cut) : Runs.skip.andThen R = R := by
  funext t x
  refine propext ⟨?_, fun h => Or.inr ⟨[], t, Or.inr ⟨rfl, rfl⟩, h, rfl⟩⟩
  rintro (⟨⟨rfl, rfl⟩ | ⟨-, rfl⟩, hx⟩ | ⟨u, v, ⟨-, h⟩ | ⟨rfl, -⟩, hv, rfl⟩)
  · exact hR
  · exact absurd rfl hx
  · cases h
  · exact hv

theorem stmtsRuns_toList_append (s : Option Stmt) (ss : List Stmt) :
    stmtsRuns V (s.toList ++ ss) = (stmtRuns? V s).andThen (stmtsRuns V ss) := by
  cases s with
  | none => exact (Runs.skip_andThen (stmtsRuns_cut V ss)).symm
  | some s => rfl

@[simp]
theorem Stmt.single_toList (s : Option Stmt) : Stmt.single s.toList = s := by
  cases s <;> rfl

namespace Editor

/-- An editor replaces each statement of one step by at most one such statement, which shows in `V'`
what the statement shows in `V`, and changes nothing else. -/
structure KeepsPaths (E : Editor Id) (V V' : View α) : Prop where
  exprs : E.KeepsExprs
  atomic : ∀ s, s.isAtomic = true → LiteralFree (s.events {}) → ∃ r : Option Stmt,
    E.onStmt s (pure s) = pure r.toList ∧ LiteralFree (stmtEvents? {} r) ∧
      ∀ label, labeledRuns? V' label r = V.simple s
  compound : ∀ s s', s.isAtomic = false → s'.isAtomic = false →
    E.onStmt s (pure s') = pure [s']
  empty : ∀ span, V'.simple (.empty span) = .skip

namespace KeepsPaths

variable {E : Editor Id}

/-- The paths through a statement are kept. -/
private def KeptStmt (E : Editor Id) (V V' : View α) (s : Stmt) : Prop :=
  LiteralFree (s.events {}) → ∃ r : Option Stmt, E.stmt s = pure r.toList ∧
    LiteralFree (stmtEvents? {} r) ∧ ∀ label, labeledRuns? V' label r = s.runs V label

private theorem stmts_kept {ss : List Stmt} (ih : ∀ s ∈ ss, KeptStmt E V V' s)
    (hlit : LiteralFree (stmtsEvents {} ss)) : ∃ rs, E.stmts ss = pure rs ∧
      LiteralFree (stmtsEvents {} rs) ∧ stmtsRuns V' rs = stmtsRuns V ss := by
  induction ss with
  | nil => exact ⟨[], rfl, hlit, rfl⟩
  | cons s ss ihs =>
    simp only [stmtsEvents, literalFree_append] at hlit
    obtain ⟨r, hr, hrlit, hrruns⟩ := ih s List.mem_cons_self hlit.1
    obtain ⟨rs, hrs, hrslit, hrsruns⟩ := ihs (fun t ht => ih t (List.mem_cons_of_mem s ht)) hlit.2
    refine ⟨r.toList ++ rs, ?_, ?_, ?_⟩
    · rw [stmts, hr, hrs, pure_bind, pure_bind]
    · cases r with
      | none => exact hrslit
      | some r => exact (literalFree_append _ _).mpr ⟨hrlit, hrslit⟩
    · rw [stmtsRuns_toList_append, ← labeledRuns?_none_label, hrruns, hrsruns]
      rfl

private theorem stmt?_kept {s : Option Stmt} (ih : ∀ t ∈ s, KeptStmt E V V' t)
    (hlit : LiteralFree (stmtEvents? {} s)) : ∃ r, E.stmt? s = pure r ∧
      LiteralFree (stmtEvents? {} r) ∧ stmtRuns? V' r = stmtRuns? V s := by
  cases s with
  | none => exact ⟨none, rfl, hlit, rfl⟩
  | some s =>
    obtain ⟨r, hr, hrlit, hrruns⟩ := ih s rfl hlit
    refine ⟨r, ?_, hrlit, ?_⟩
    · rw [stmt?, hr, map_pure, Stmt.single_toList]
    · rw [← labeledRuns?_none_label, hrruns]
      rfl

private theorem block_kept {b : Block} (ih : ∀ s ∈ b.stmts, KeptStmt E V V' s)
    (hlit : LiteralFree (b.events {})) : ∃ c : Block, E.block b = pure c ∧
      LiteralFree (c.events {}) ∧ c.runs V' = b.runs V := by
  obtain ⟨ss, sp⟩ := b
  obtain ⟨rs, hrs, hrslit, hrsruns⟩ := stmts_kept ih hlit
  exact ⟨⟨rs, sp⟩, by rw [block, hrs, pure_bind], hrslit, hrsruns⟩

private theorem cases_kept (hE : E.KeepsExprs) {cs : List CaseClause}
    (ih : ∀ c ∈ cs, ∀ s ∈ c.body, KeptStmt E V V' s)
    (hlit : LiteralFree (casesEvents {} cs)) : ∃ ds, E.cases cs = pure ds ∧
      LiteralFree (casesEvents {} ds) ∧ casesRuns V' ds = casesRuns V cs ∧
      ds.any CaseClause.isDefault = cs.any CaseClause.isDefault := by
  induction cs with
  | nil => exact ⟨[], rfl, hlit, rfl, rfl⟩
  | cons c cs ihc =>
    have ihc := ihc fun d hd => ih d (List.mem_cons_of_mem c hd)
    cases c with
    | case xs body sp =>
      simp only [casesEvents, literalFree_append] at hlit
      have ihb : ∀ s ∈ body, KeptStmt E V V' s := ih _ List.mem_cons_self
      obtain ⟨rs, hrs, hrslit, hrsruns⟩ := stmts_kept ihb hlit.1.2
      obtain ⟨ds, hds, hdslit, hdsruns, hdefault⟩ := ihc hlit.2
      refine ⟨.case xs rs sp :: ds, ?_, ?_, ?_, ?_⟩
      · rw [cases, hE.exprs_eq hlit.1.1, hrs, hds]
        simp only [consM, pure_bind]
      · simp only [casesEvents, literalFree_append]
        exact ⟨⟨hlit.1.1, hrslit⟩, hdslit⟩
      · rw [casesRuns, casesRuns, hrsruns, hdsruns]
      · rw [List.any_cons, List.any_cons, hdefault]
        rfl
    | default body sp =>
      simp only [casesEvents, literalFree_append] at hlit
      have ihb : ∀ s ∈ body, KeptStmt E V V' s := ih _ List.mem_cons_self
      obtain ⟨rs, hrs, hrslit, hrsruns⟩ := stmts_kept ihb hlit.1
      obtain ⟨ds, hds, hdslit, hdsruns, hdefault⟩ := ihc hlit.2
      refine ⟨.default rs sp :: ds, ?_, ?_, ?_, rfl⟩
      · rw [cases, hrs, hds]
        simp only [consM, pure_bind]
      · simp only [casesEvents, literalFree_append]
        exact ⟨hrslit, hdslit⟩
      · rw [casesRuns, casesRuns, hrsruns, hdsruns]

private theorem comms_kept {cs : List CommClause}
    (ih : ∀ c ∈ cs, (∀ s ∈ c.comm, KeptStmt E V V' s) ∧ ∀ s ∈ c.body, KeptStmt E V V' s)
    (hlit : LiteralFree (commsEvents {} cs)) : ∃ ds, E.comms cs = pure ds ∧
      LiteralFree (commsEvents {} ds) ∧ commsRuns V' ds = commsRuns V cs := by
  induction cs with
  | nil => exact ⟨[], rfl, hlit, rfl⟩
  | cons c cs ihc =>
    obtain ⟨comm, body, sp⟩ := c
    simp only [commsEvents, literalFree_append] at hlit
    obtain ⟨hcomm, hbody⟩ := ih _ List.mem_cons_self
    obtain ⟨r, hr, hrlit, hrruns⟩ := stmt?_kept hcomm hlit.1.1
    obtain ⟨rs, hrs, hrslit, hrsruns⟩ := stmts_kept hbody hlit.1.2
    obtain ⟨ds, hds, hdslit, hdsruns⟩ := ihc (fun d hd => ih d (List.mem_cons_of_mem _ hd)) hlit.2
    refine ⟨⟨r, rs, sp⟩ :: ds, ?_, ?_, ?_⟩
    · rw [comms, hr, pure_bind, hrs, hds]
      simp only [consM, pure_bind]
    · simp only [commsEvents, literalFree_append]
      exact ⟨⟨hrlit, hrslit⟩, hdslit⟩
    · rw [commsRuns, commsRuns, hrruns, hrsruns, hdsruns]

private theorem kept_of_atomic (h : E.KeepsPaths V V') {s : Stmt} (hs : s.isAtomic = true)
    (hinside : E.stmt s = E.onStmt s (pure s)) (hlit : LiteralFree (s.events {})) :
    ∃ r : Option Stmt, E.stmt s = pure r.toList ∧ LiteralFree (stmtEvents? {} r) ∧
      ∀ label, labeledRuns? V' label r = s.runs V label := by
  obtain ⟨r, hr, hrlit, hrruns⟩ := h.atomic s hs hlit
  refine ⟨r, hinside.trans hr, hrlit, fun label => ?_⟩
  rw [hrruns, Stmt.runs_of_isAtomic hs]

private theorem stmt_kept (h : E.KeepsPaths V V') (s : Stmt) : KeptStmt E V V' s := by
  have hE := h.exprs
  induction s using Stmt.partsInduction with
  | decl d =>
    intro hlit
    refine kept_of_atomic h rfl ?_ hlit
    simp only [Stmt.events, literalFree_cons, literalFree_append] at hlit
    rw [stmt, hE.genDecl_eq hlit.1.2, pure_bind]
  | labeled l s sp ih =>
    intro hlit
    simp only [Stmt.events, literalFree_cons, literalFree_append] at hlit
    obtain ⟨r, hr, hrlit, hrruns⟩ := ih hlit.1.2
    refine ⟨some (.labeled l (r.getD (.empty sp)) sp), ?_, ?_, fun label => ?_⟩
    · rw [stmt, hr, pure_bind, Stmt.single_toList, h.compound _ _ rfl rfl]
      rfl
    · simp only [stmtEvents?, Stmt.events, literalFree_cons, literalFree_append]
      refine ⟨⟨rfl, ?_⟩, rfl, literalFree_nil⟩
      cases r with
      | none => exact List.forall_mem_cons.mpr ⟨rfl, List.forall_mem_singleton.mpr rfl⟩
      | some r => exact hrlit
    · rw [Stmt.runs, ← hrruns]
      cases r with
      | none => exact h.empty sp
      | some r => rfl
  | expr x | incDec x inc sp | go x sp | defer x sp =>
    intro hlit
    refine kept_of_atomic h rfl ?_ hlit
    simp only [Stmt.events, literalFree_cons, literalFree_append] at hlit
    rw [stmt, hE.expr_eq hlit.1.2, pure_bind]
  | send chan value sp =>
    intro hlit
    refine kept_of_atomic h rfl ?_ hlit
    simp only [Stmt.events, literalFree_cons, literalFree_append] at hlit
    rw [stmt, hE.expr_eq hlit.1.2.1, pure_bind, hE.expr_eq hlit.1.2.2, pure_bind]
  | assign lhs op rhs sp =>
    intro hlit
    refine kept_of_atomic h rfl ?_ hlit
    simp only [Stmt.events, literalFree_cons, literalFree_append] at hlit
    rw [stmt, hE.exprs_eq hlit.1.2.1, pure_bind, hE.exprs_eq hlit.1.2.2, pure_bind]
  | returns xs sp =>
    intro hlit
    refine kept_of_atomic h rfl ?_ hlit
    simp only [Stmt.events, literalFree_cons, literalFree_append] at hlit
    rw [stmt, hE.exprs_eq hlit.1.2, pure_bind]
  | empty sp => exact kept_of_atomic h rfl (by rw [stmt])
  | branch kind l sp =>
    intro hlit
    refine ⟨some (.branch kind l sp), ?_, hlit, fun label => ?_⟩
    · rw [stmt, h.compound _ _ rfl rfl]
      rfl
    · cases kind <;> rfl
  | block b ih =>
    intro hlit
    simp only [Stmt.events, literalFree_cons, literalFree_append] at hlit
    obtain ⟨c, hc, hclit, hcruns⟩ := block_kept ih hlit.1.2
    refine ⟨some (.block c), ?_, ?_, fun label => hcruns⟩
    · rw [stmt, hc, pure_bind, h.compound _ _ rfl rfl]
      rfl
    · simp only [stmtEvents?, Stmt.events, literalFree_cons, literalFree_append]
      exact ⟨⟨rfl, hclit⟩, rfl, literalFree_nil⟩
  | ifElse init cond b els sp hi hb he =>
    intro hlit
    simp only [Stmt.events, literalFree_cons, literalFree_append] at hlit
    obtain ⟨⟨-, ⟨⟨hli, hlc⟩, hlb⟩, hle⟩, -⟩ := hlit
    obtain ⟨i, hieq, hilit, hiruns⟩ := stmt?_kept hi hli
    obtain ⟨c, hc, hclit, hcruns⟩ := block_kept hb hlb
    obtain ⟨e, he, helit, heruns⟩ := stmt?_kept he hle
    refine ⟨some (.ifElse i cond c e sp), ?_, ?_, fun label => ?_⟩
    · rw [stmt, hieq, pure_bind, hE.expr_eq hlc, pure_bind, hc, pure_bind, he, pure_bind,
        h.compound _ _ rfl rfl]
      rfl
    · simp only [stmtEvents?, Stmt.events, literalFree_cons, literalFree_append]
      exact ⟨⟨rfl, ⟨⟨hilit, hlc⟩, hclit⟩, helit⟩, rfl, literalFree_nil⟩
    · rw [labeledRuns?, Stmt.runs, hiruns, hcruns, heruns, Stmt.runs]
  | switch init tag cs sp hi hc =>
    intro hlit
    simp only [Stmt.events, literalFree_cons, literalFree_append] at hlit
    obtain ⟨⟨-, ⟨hli, hlt⟩, hlc⟩, -⟩ := hlit
    obtain ⟨i, hieq, hilit, hiruns⟩ := stmt?_kept hi hli
    obtain ⟨ds, hds, hdslit, hdsruns, hdefault⟩ := cases_kept hE hc hlc
    refine ⟨some (.switch i tag ds sp), ?_, ?_, fun label => ?_⟩
    · rw [stmt, hieq, pure_bind, hE.expr?_eq hlt, pure_bind, hds, pure_bind, h.compound _ _ rfl rfl]
      rfl
    · simp only [stmtEvents?, Stmt.events, literalFree_cons, literalFree_append]
      exact ⟨⟨rfl, ⟨hilit, hlt⟩, hdslit⟩, rfl, literalFree_nil⟩
    · rw [labeledRuns?, Stmt.runs, hiruns, hdsruns, hdefault, Stmt.runs]
  | typeSwitch init id subject cs sp hi hc =>
    intro hlit
    simp only [Stmt.events, literalFree_cons, literalFree_append] at hlit
    obtain ⟨⟨-, ⟨hli, hlx⟩, hlc⟩, -⟩ := hlit
    obtain ⟨i, hieq, hilit, hiruns⟩ := stmt?_kept hi hli
    obtain ⟨ds, hds, hdslit, hdsruns, hdefault⟩ := cases_kept hE hc hlc
    refine ⟨some (.typeSwitch i id subject ds sp), ?_, ?_, fun label => ?_⟩
    · rw [stmt, hieq, pure_bind, hE.expr_eq hlx, pure_bind, hds, pure_bind, h.compound _ _ rfl rfl]
      rfl
    · simp only [stmtEvents?, Stmt.events, literalFree_cons, literalFree_append]
      exact ⟨⟨rfl, ⟨hilit, hlx⟩, hdslit⟩, rfl, literalFree_nil⟩
    · rw [labeledRuns?, Stmt.runs, hiruns, hdsruns, hdefault, Stmt.runs]
  | select cs sp hc =>
    intro hlit
    simp only [Stmt.events, literalFree_cons, literalFree_append] at hlit
    obtain ⟨ds, hds, hdslit, hdsruns⟩ := comms_kept hc hlit.1.2
    refine ⟨some (.select ds sp), ?_, ?_, fun label => ?_⟩
    · rw [stmt, hds, pure_bind, h.compound _ _ rfl rfl]
      rfl
    · simp only [stmtEvents?, Stmt.events, literalFree_cons, literalFree_append]
      exact ⟨⟨rfl, hdslit⟩, rfl, literalFree_nil⟩
    · rw [labeledRuns?, Stmt.runs, hdsruns, Stmt.runs]
  | loop init cond post b sp hi hp hb =>
    intro hlit
    simp only [Stmt.events, literalFree_cons, literalFree_append] at hlit
    obtain ⟨⟨-, ⟨⟨hli, hlc⟩, hlp⟩, hlb⟩, -⟩ := hlit
    obtain ⟨i, hieq, hilit, hiruns⟩ := stmt?_kept hi hli
    obtain ⟨q, hq, hqlit, hqruns⟩ := stmt?_kept hp hlp
    obtain ⟨c, hc, hclit, hcruns⟩ := block_kept hb hlb
    refine ⟨some (.loop i cond q c sp), ?_, ?_, fun label => ?_⟩
    · rw [stmt, hieq, pure_bind, hE.expr?_eq hlc, pure_bind, hq, pure_bind, hc, pure_bind,
        h.compound _ _ rfl rfl]
      rfl
    · simp only [stmtEvents?, Stmt.events, literalFree_cons, literalFree_append]
      exact ⟨⟨rfl, ⟨⟨hilit, hlc⟩, hqlit⟩, hclit⟩, rfl, literalFree_nil⟩
    · rw [labeledRuns?, Stmt.runs, hiruns, hqruns, hcruns, Stmt.runs]
  | range k v d x b sp hb =>
    intro hlit
    simp only [Stmt.events, literalFree_cons, literalFree_append] at hlit
    obtain ⟨⟨-, ⟨⟨hlk, hlv⟩, hlx⟩, hlb⟩, -⟩ := hlit
    obtain ⟨c, hc, hclit, hcruns⟩ := block_kept hb hlb
    refine ⟨some (.range k v d x c sp), ?_, ?_, fun label => ?_⟩
    · rw [stmt, hE.range?_eq hlk, pure_bind, hE.range?_eq hlv, pure_bind, hE.expr_eq hlx, pure_bind,
        hc, pure_bind, h.compound _ _ rfl rfl]
      rfl
    · simp only [stmtEvents?, Stmt.events, literalFree_cons, literalFree_append]
      exact ⟨⟨rfl, ⟨⟨hlk, hlv⟩, hlx⟩, hclit⟩, rfl, literalFree_nil⟩
    · rw [labeledRuns?, Stmt.runs, hcruns, Stmt.runs]

/-- An editor that keeps paths keeps those through a block without function literals. -/
theorem block_runs (h : E.KeepsPaths V V') {b : Block} (hlit : LiteralFree (b.events {})) :
    LiteralFree ((Id.run (E.block b)).events {}) ∧ (Id.run (E.block b)).runs V' = b.runs V := by
  obtain ⟨c, hc, hclit, hcruns⟩ := block_kept (fun s _ => stmt_kept h s) hlit
  rw [hc]
  exact ⟨hclit, hcruns⟩

end KeepsPaths

end Editor

end ServiceSplit
