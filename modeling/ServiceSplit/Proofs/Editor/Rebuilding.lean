import Mathlib.Data.List.Forall2
import ServiceSplit.Proofs.Outcomes
import ServiceSplit.Proofs.Tree.Every
import ServiceSplit.Tree.Edit

/-!
# What editors make of trees

An editor puts a statement or an expression together again from its edited parts, in the form it
had, and its hooks then tell what becomes of it. If the hooks make of each part only what may become
of it, given that this is so of the parts inside, then only such things are made of whole trees.
-/

namespace ServiceSplit

/-- What may become of expressions, of statements and of the bodies of function literals. -/
structure Change where
  expr : Expr → Expr → Prop
  stmt : Stmt → List Stmt → Prop
  lit : Block → Block → Prop

namespace Change

variable (C : Change)

/-- The statements `ts` stand where `ss` stood. -/
inductive InStmts : List Stmt → List Stmt → Prop
  | nil : InStmts [] []
  | cons {s ts ss us} : C.stmt s ts → InStmts ss us → InStmts (s :: ss) (ts ++ us)

/-- The statement `t` stands where `s` stood and one statement can stand. -/
def InStmt? (s t : Option Stmt) : Prop :=
  ∃ ts, C.InStmts s.toList ts ∧ t = Stmt.single ts

inductive InBlock : Block → Block → Prop
  | mk {ss ts sp} : C.InStmts ss ts → InBlock ⟨ss, sp⟩ ⟨ts, sp⟩

abbrev InExprs : List Expr → List Expr → Prop :=
  List.Forall₂ C.expr

def InExpr? (x y : Option Expr) : Prop :=
  C.InExprs x.toList y.toList

inductive InSpec : Spec → Spec → Prop
  | value {names ty xs ys sp} : C.InExprs xs ys → InSpec (.value names ty xs sp)
      (.value names ty ys sp)
  | type {id params isAlias ty sp} :
    InSpec (.type id params isAlias ty sp) (.type id params isAlias ty sp)

inductive InGenDecl : GenDecl → GenDecl → Prop
  | mk {kind specs specs' grouped directives sp} : List.Forall₂ C.InSpec specs specs' →
    InGenDecl ⟨kind, specs, grouped, directives, sp⟩ ⟨kind, specs', grouped, directives, sp⟩

inductive InCase : CaseClause → CaseClause → Prop
  | case {xs ys ss ts sp} : C.InExprs xs ys → C.InStmts ss ts → InCase (.case xs ss sp)
      (.case ys ts sp)
  | default {ss ts sp} : C.InStmts ss ts → InCase (.default ss sp) (.default ts sp)

inductive InComm : CommClause → CommClause → Prop
  | mk {s t ss ts sp} : C.InStmt? s t → C.InStmts ss ts → InComm ⟨s, ss, sp⟩ ⟨t, ts, sp⟩

/-- The expression `y` is `x` with other parts. -/
inductive InExpr : Expr → Expr → Prop
  | ident {id} : InExpr (.ident id) (.ident id)
  | lit {kind raw sp} : InExpr (.lit kind raw sp) (.lit kind raw sp)
  | type {ty sp} : InExpr (.type ty sp) (.type ty sp)
  | composite {ty ty' xs ys sp} : C.InExpr? ty ty' → C.InExprs xs ys →
    InExpr (.composite ty xs sp) (.composite ty' ys sp)
  | funcLit {sig b b' sp} : C.lit b b' → InExpr (.funcLit sig b sp) (.funcLit sig b' sp)
  | paren {x y sp} : C.expr x y → InExpr (.paren x sp) (.paren y sp)
  | selector {x y sel sp} : C.expr x y → InExpr (.selector x sel sp) (.selector y sel sp)
  | index {x y xs ys sp} : C.expr x y → C.InExprs xs ys → InExpr (.index x xs sp) (.index y ys sp)
  | slice {x y low low' high high' max max' three sp} : C.expr x y → C.InExpr? low low' →
    C.InExpr? high high' → C.InExpr? max max' →
    InExpr (.slice x low high max three sp) (.slice y low' high' max' three sp)
  | typeAssert {x y ty sp} : C.expr x y → InExpr (.typeAssert x ty sp) (.typeAssert y ty sp)
  | call {x y xs ys spread sp} : C.expr x y → C.InExprs xs ys →
    InExpr (.call x xs spread sp) (.call y ys spread sp)
  | star {x y sp} : C.expr x y → InExpr (.star x sp) (.star y sp)
  | unary {op x y sp} : C.expr x y → InExpr (.unary op x sp) (.unary op y sp)
  | binary {op x y x' y' sp} : C.expr x x' → C.expr y y' →
    InExpr (.binary op x y sp) (.binary op x' y' sp)
  | keyValue {x y x' y' sp} : C.expr x x' → C.expr y y' →
    InExpr (.keyValue x y sp) (.keyValue x' y' sp)

/-- The statement `t` is `s` with other parts. -/
inductive InStmt : Stmt → Stmt → Prop
  | decl {d d'} : C.InGenDecl d d' → InStmt (.decl d) (.decl d')
  | labeled {l s ts sp} : C.stmt s ts →
    InStmt (.labeled l s sp) (.labeled l ((Stmt.single ts).getD (.empty sp)) sp)
  | expr {x y} : C.expr x y → InStmt (.expr x) (.expr y)
  | send {x y x' y' sp} : C.expr x x' → C.expr y y' → InStmt (.send x y sp) (.send x' y' sp)
  | incDec {x y inc sp} : C.expr x y → InStmt (.incDec x inc sp) (.incDec y inc sp)
  | assign {xs ys xs' ys' op sp} : C.InExprs xs xs' → C.InExprs ys ys' →
    InStmt (.assign xs op ys sp) (.assign xs' op ys' sp)
  | go {x y sp} : C.expr x y → InStmt (.go x sp) (.go y sp)
  | defer {x y sp} : C.expr x y → InStmt (.defer x sp) (.defer y sp)
  | returns {xs ys sp} : C.InExprs xs ys → InStmt (.returns xs sp) (.returns ys sp)
  | branch {kind l sp} : InStmt (.branch kind l sp) (.branch kind l sp)
  | empty {sp} : InStmt (.empty sp) (.empty sp)
  | block {b b'} : C.InBlock b b' → InStmt (.block b) (.block b')
  | ifElse {s s' x x' b b' els els' sp} : C.InStmt? s s' → C.expr x x' → C.InBlock b b' →
    C.InStmt? els els' → InStmt (.ifElse s x b els sp) (.ifElse s' x' b' els' sp)
  | switch {s s' x x' cs cs' sp} : C.InStmt? s s' → C.InExpr? x x' → List.Forall₂ C.InCase cs cs' →
    InStmt (.switch s x cs sp) (.switch s' x' cs' sp)
  | typeSwitch {s s' id x x' cs cs' sp} : C.InStmt? s s' → C.expr x x' →
      List.Forall₂ C.InCase cs cs' →
    InStmt (.typeSwitch s id x cs sp) (.typeSwitch s' id x' cs' sp)
  | select {cs cs' sp} : List.Forall₂ C.InComm cs cs' → InStmt (.select cs sp) (.select cs' sp)
  | loop {s s' x x' t t' b b' sp} : C.InStmt? s s' → C.InExpr? x x' → C.InStmt? t t' →
      C.InBlock b b' →
    InStmt (.loop s x t b sp) (.loop s' x' t' b' sp)
  | range {x x' y y' define z z' b b' sp} : C.InExpr? x x' → C.InExpr? y y' → C.expr z z' →
    C.InBlock b b' → InStmt (.range x y define z b sp) (.range x' y' define z' b' sp)

end Change

/-- The hooks of an editor make of the parts that have the property `Q` only what may become of
them. -/
structure Editor.Makes {m : Type → Type} [Monad m] (W : Outcomes m) (Q : NodeProp) (C : Change)
    (E : Editor m) : Prop where
  onStmt : ∀ s inside, s.Every Q → W.Gives inside (C.InStmt s) → W.Gives (E.onStmt s inside)
    (C.stmt s)
  onExpr : ∀ role x inside, x.Every Q → W.Gives inside (C.InExpr x) →
    W.Gives (E.onExpr role x inside) (C.expr x)
  onLit : ∀ sig body span inside, (Expr.funcLit sig body span).Every Q →
    W.Gives inside (C.InBlock body) → W.Gives (E.onLit sig body inside) (C.lit body)
  pairs : ∀ k v sp, Q.expr (.keyValue k v sp)

namespace Editor

variable {m : Type → Type} [Monad m] {W : Outcomes m} {E : Editor m} {Q : NodeProp} {C : Change}

private def ExprMade (W : Outcomes m) (E : Editor m) (Q : NodeProp) (C : Change)
    (x : Expr) : Prop :=
  x.Every Q → ∀ role, W.Gives (E.expr role x) (C.expr x)

private def StmtMade (W : Outcomes m) (E : Editor m) (Q : NodeProp) (C : Change)
    (s : Stmt) : Prop :=
  s.Every Q → W.Gives (E.stmt s) (C.stmt s)

/-! ### Lists and options -/

/-- The parts of a list are edited one after the other. -/
private theorem made_list {α : Type} {f : List α → m (List α)} {R : α → α → Prop}
    (hnil : f [] = pure []) {as : List α}
    (h : ∀ a ∈ as, ∃ act, (∀ rest, f (a :: rest) = consM act (f rest)) ∧ W.Gives act (R a)) :
    W.Gives (f as) (List.Forall₂ R as) := by
  induction as with
  | nil =>
    rw [hnil]
    exact W.pure .nil
  | cons a as ih =>
    rw [List.forall_mem_cons] at h
    obtain ⟨act, hact, hgives⟩ := h.1
    rw [hact]
    exact hgives.bind fun b hb => (ih h.2).returning fun bs hbs => .cons hb hbs

private theorem made_exprs {xs : List Expr} (ih : ∀ x ∈ xs, ExprMade W E Q C x)
    (h : ∀ x ∈ xs, x.Every Q) (role : Role) : W.Gives (E.exprs role xs) (C.InExprs xs) :=
  made_list (f := E.exprs role) rfl fun x hx => ⟨_, fun _ => rfl, ih x hx (h x hx) role⟩

private theorem made_stmts {ss : List Stmt} (ih : ∀ s ∈ ss, StmtMade W E Q C s)
    (h : ∀ s ∈ ss, s.Every Q) : W.Gives (E.stmts ss) (C.InStmts ss) := by
  induction ss with
  | nil => exact W.pure .nil
  | cons s ss ihss =>
    rw [List.forall_mem_cons] at ih h
    exact Outcomes.Gives.bind (ih.1 h.1) fun first hfirst =>
      (ihss ih.2 h.2).returning fun rest hrest =>
      .cons hfirst hrest

private theorem made_block {b : Block} (ih : ∀ s ∈ b.stmts, StmtMade W E Q C s) (h : b.Every Q) :
    W.Gives (E.block b) (C.InBlock b) := by
  obtain ⟨ss, sp⟩ := b
  exact (made_stmts ih h).returning fun _ => .mk

private theorem made_genDecl {d : GenDecl}
    (ih : ∀ names ty values sp, .value names ty values sp ∈ d.specs → ∀ x ∈ values,
    ExprMade W E Q C x)
    (h : ∀ spec ∈ d.specs, spec.Every Q) : W.Gives (E.genDecl d) (C.InGenDecl d) := by
  obtain ⟨kind, specs, grouped, directives, sp⟩ := d
  refine Outcomes.Gives.returning (made_list (f := E.specs) (R := C.InSpec) rfl ?_)
    fun _ => .mk
  rintro (⟨names, ty, values, sp⟩ | ⟨id, params, isAlias, t, sp⟩) hspec
  · exact ⟨_, fun _ => rfl, (made_exprs (ih _ _ _ _ hspec) (h _ hspec).2 .use).returning
      fun _ => .value⟩
  · exact ⟨_, fun _ => rfl, W.pure .type⟩

private theorem made_cases {cs : List CaseClause}
    (ih : ∀ c ∈ cs, (∀ x ∈ c.exprs, ExprMade W E Q C x) ∧ ∀ s ∈ c.body, StmtMade W E Q C s)
    (h : ∀ c ∈ cs, c.Every Q) : W.Gives (E.cases cs) (List.Forall₂ C.InCase cs) := by
  refine made_list (f := E.cases) rfl ?_
  rintro (⟨list, body, sp⟩ | ⟨body, sp⟩) hc
  · exact ⟨_, fun _ => rfl, (made_exprs (ih _ hc).1 (h _ hc).1 .use).bind fun list' hlist' =>
      (made_stmts (ih _ hc).2 (h _ hc).2).returning fun _ => .case hlist'⟩
  · exact ⟨_, fun _ => rfl, (made_stmts (ih _ hc).2 (h _ hc).2).returning fun _ => .default⟩

/-! ### Trees -/

private theorem Makes.everyPart (hE : E.Makes W Q C) {x : Expr} (h : x.Every Q) : x.EveryPart Q :=
  ((Expr.every_iff Q hE.pairs x).mp h).2

variable [LawfulMonad m]

private theorem made_expr? {o : Option Expr} (ih : ∀ x ∈ o, ExprMade W E Q C x)
    (h : ∀ x ∈ o, x.Every Q) (role : Role) : W.Gives (E.expr? role o) (C.InExpr? o) := by
  cases o with
  | none => exact W.pure .nil
  | some x => exact Outcomes.Gives.map (ih x rfl (h x rfl) role) fun y hy => .cons hy .nil

private theorem made_stmt? {o : Option Stmt} (ih : ∀ s ∈ o, StmtMade W E Q C s)
    (h : ∀ s ∈ o, s.Every Q) : W.Gives (E.stmt? o) (C.InStmt? o) := by
  cases o with
  | none => exact W.pure ⟨[], .nil, rfl⟩
  | some s =>
    refine Outcomes.Gives.map (ih s rfl (h s rfl)) fun ts hts => ⟨ts, ?_, rfl⟩
    simpa using Change.InStmts.cons hts .nil

private theorem made_comms {cs : List CommClause}
    (ih : ∀ c ∈ cs, (∀ s ∈ c.comm, StmtMade W E Q C s) ∧ ∀ s ∈ c.body, StmtMade W E Q C s)
    (h : ∀ c ∈ cs, c.Every Q) : W.Gives (E.comms cs) (List.Forall₂ C.InComm cs) := by
  refine made_list (f := E.comms) rfl ?_
  rintro ⟨comm, body, sp⟩ hc
  exact ⟨_, fun _ => rfl, (made_stmt? (ih _ hc).1 (h _ hc).1).bind fun comm' hcomm' =>
    (made_stmts (ih _ hc).2 (h _ hc).2).returning fun _ => .mk hcomm'⟩

namespace Makes

private theorem steps (hE : E.Makes W Q C) :
    TreeSteps (fun _ => True) (ExprMade W E Q C) (StmtMade W E Q C) := by
  constructor
  case' toExprSteps => constructor
  case ident | lit | type =>
    intros
    intro h role
    exact hE.onExpr role _ _ h (W.pure (by constructor))
  case composite =>
    intro ty elts sp iht ih _ h role
    obtain ⟨hty, helts⟩ := hE.everyPart h
    exact hE.onExpr role _ _ h <| (made_expr? iht hty .use).bind fun ty' hty' =>
      (made_exprs ih helts .use).returning fun _ => .composite hty'
  case funcLit =>
    intro sig body sp _ _ ih h role
    exact hE.onExpr role _ _ h <|
      (hE.onLit sig body sp _ h (made_block ih (hE.everyPart h).2)).returning
      fun _ => .funcLit
  case paren | selector | star | unary =>
    intros
    rename_i ih
    intro h role
    exact hE.onExpr role _ _ h <| Outcomes.Gives.returning (ih (hE.everyPart h) .use)
      fun _ hx => by constructor; exact hx
  case typeAssert =>
    intro x ty sp ih _ h role
    exact hE.onExpr role _ _ h <| Outcomes.Gives.returning (ih (hE.everyPart h).1 .use) fun _ =>
      .typeAssert
  case index | call =>
    intros
    rename_i ih ihs
    intro h role
    obtain ⟨hx, hxs⟩ := hE.everyPart h
    exact hE.onExpr role _ _ h <| Outcomes.Gives.bind (ih hx .use) fun x' hx' =>
      (made_exprs ihs hxs .use).returning fun _ hxs' => by constructor <;> assumption
  case slice =>
    intro x low high max three sp ih ihl ihh ihm h role
    obtain ⟨hx, hlow, hhigh, hmax⟩ := hE.everyPart h
    exact hE.onExpr role _ _ h <| Outcomes.Gives.bind (ih hx .use) fun x' hx' =>
      (made_expr? ihl hlow .use).bind fun low' hlow' =>
      (made_expr? ihh hhigh .use).bind fun high' hhigh' =>
      (made_expr? ihm hmax .use).returning fun _ => .slice hx' hlow' hhigh'
  case binary | keyValue =>
    intros
    rename_i ihx ihy
    intro h role
    obtain ⟨hx, hy⟩ := hE.everyPart h
    exact hE.onExpr role _ _ h <| Outcomes.Gives.bind (ihx hx .use) fun x' hx' =>
      Outcomes.Gives.returning (ihy hy .use) fun _ hy' => by constructor <;> assumption
  case decl =>
    intro d ihv _ h
    obtain ⟨-, hspecs⟩ := (Stmt.every_iff _ _).mp h
    exact hE.onStmt _ _ h <|
      (made_genDecl (fun names ty values sp hm => (ihv names ty values sp hm).2)
      hspecs).returning fun _ => .decl
  case labeled =>
    intro l s sp ih h
    obtain ⟨-, hs⟩ := (Stmt.every_iff _ _).mp h
    exact hE.onStmt _ _ h <| Outcomes.Gives.returning (ih hs) fun _ => .labeled
  case exprStmt | incDec | go | defer =>
    intros
    rename_i ih
    intro h
    obtain ⟨-, hx⟩ := (Stmt.every_iff _ _).mp h
    exact hE.onStmt _ _ h <|
      Outcomes.Gives.returning (ih hx _) fun _ hx' => by constructor; exact hx'
  case send =>
    intro c v sp ihc ihv h
    obtain ⟨-, hc, hv⟩ := (Stmt.every_iff _ _).mp h
    exact hE.onStmt _ _ h <| Outcomes.Gives.bind (ihc hc .sendTarget) fun c' hc' =>
      Outcomes.Gives.returning (ihv hv .use) fun _ => .send hc'
  case assign =>
    intro lhs op rhs sp ihl ihr h
    obtain ⟨-, hlhs, hrhs⟩ := (Stmt.every_iff _ _).mp h
    exact hE.onStmt _ _ h <| (made_exprs ihl hlhs op.targetRole).bind fun lhs' hlhs' =>
      (made_exprs ihr hrhs .use).returning fun _ => .assign hlhs'
  case returns =>
    intro xs sp ih h
    obtain ⟨-, hxs⟩ := (Stmt.every_iff _ _).mp h
    exact hE.onStmt _ _ h <| (made_exprs ih hxs .use).returning fun _ => .returns
  case branch | empty =>
    intros
    intro h
    exact hE.onStmt _ _ h (W.pure (by constructor))
  case block =>
    intro b ih h
    obtain ⟨-, hb⟩ := (Stmt.every_iff _ _).mp h
    exact hE.onStmt _ _ h <| (made_block ih hb).returning fun _ => .block
  case ifElse =>
    intro init cond b els sp ihi ihc ihb ihe h
    obtain ⟨-, hinit, hcond, hb, hels⟩ := (Stmt.every_iff _ _).mp h
    exact hE.onStmt _ _ h <| (made_stmt? ihi hinit).bind fun init' hinit' =>
      Outcomes.Gives.bind (ihc hcond .use) fun cond' hcond' =>
        (made_block ihb hb).bind fun b' hb' =>
      (made_stmt? ihe hels).returning fun _ => .ifElse hinit' hcond' hb'
  case switch =>
    intro init tag cs sp ihi iht ihcs h
    obtain ⟨-, hinit, htag, hcs⟩ := (Stmt.every_iff _ _).mp h
    exact hE.onStmt _ _ h <| (made_stmt? ihi hinit).bind fun init' hinit' =>
      (made_expr? iht htag .use).bind fun tag' htag' => (made_cases ihcs hcs).returning fun _ =>
        .switch hinit' htag'
  case typeSwitch =>
    intro init id x cs sp ihi ihx ihcs h
    obtain ⟨-, hinit, hx, hcs⟩ := (Stmt.every_iff _ _).mp h
    exact hE.onStmt _ _ h <| (made_stmt? ihi hinit).bind fun init' hinit' =>
      Outcomes.Gives.bind (ihx hx .use) fun x' hx' => (made_cases ihcs hcs).returning fun _ =>
        .typeSwitch hinit' hx'
  case select =>
    intro cs sp ih h
    obtain ⟨-, hcs⟩ := (Stmt.every_iff _ _).mp h
    exact hE.onStmt _ _ h <| (made_comms ih hcs).returning fun _ => .select
  case loop =>
    intro init cond post b sp ihi ihc ihp ihb h
    obtain ⟨-, hinit, hcond, hpost, hb⟩ := (Stmt.every_iff _ _).mp h
    exact hE.onStmt _ _ h <| (made_stmt? ihi hinit).bind fun init' hinit' =>
      (made_expr? ihc hcond .use).bind fun cond' hcond' =>
      (made_stmt? ihp hpost).bind fun post' hpost' => (made_block ihb hb).returning fun _ =>
        .loop hinit' hcond' hpost'
  case range =>
    intro k v d x b sp ihk ihv ihx ihb h
    obtain ⟨-, hk, hv, hx, hb⟩ := (Stmt.every_iff _ _).mp h
    exact hE.onStmt _ _ h <| (made_expr? ihk hk (rangeRole d)).bind fun k' hk' =>
      (made_expr? ihv hv (rangeRole d)).bind fun v' hv' =>
      Outcomes.Gives.bind (ihx hx .use) fun x' hx' => (made_block ihb hb).returning fun _ =>
        .range hk' hv' hx'
  -- What is left is about types, which stay as they are.
  all_goals intros; trivial

theorem expr (hE : E.Makes W Q C) {x : Expr} (h : x.Every Q) (role : Role) :
    W.Gives (E.expr role x) (C.expr x) :=
  hE.steps.expr x h role

theorem block (hE : E.Makes W Q C) {b : Block} (h : b.Every Q) : W.Gives (E.block b)
    (C.InBlock b) :=
  made_block (fun s _ => hE.steps.stmt s) h

theorem genDecl (hE : E.Makes W Q C) {d : GenDecl} (h : ∀ spec ∈ d.specs, spec.Every Q) :
    W.Gives (E.genDecl d) (C.InGenDecl d) :=
  made_genDecl (fun _ _ _ _ _ x _ => hE.steps.expr x) h

end Makes

end Editor

end ServiceSplit
