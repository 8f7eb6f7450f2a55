import ServiceSplit.Proofs.Editor.Unchanged
import ServiceSplit.Proofs.Tree.Parts

/-!
# What an editor makes of the parts

An editor that leaves expressions and function literals to their parts changes a tree at its
statements alone: an expression becomes the same expression with edited parts, and a statement what
the hook for statements makes of the same statement with edited parts.
-/

namespace ServiceSplit

/-! ### The same tree with other parts -/

section Map

variable (stmt : Stmt → List Stmt) (expr : Expr → Expr)

/-- What becomes of a statement where only one can stand. -/
def Stmt.mapOption (s : Option Stmt) : Option Stmt :=
  s.bind fun s => Stmt.single (stmt s)

/-- A block with other statements. -/
def Block.mapStmts (b : Block) : Block :=
  ⟨b.stmts.flatMap stmt, b.span⟩

/-- An expression with other parts. -/
def Expr.mapParts : Expr → Expr
  | .ident id => .ident id
  | .lit kind raw s => .lit kind raw s
  | .type ty s => .type ty s
  | .composite ty elts s => .composite (ty.map expr) (elts.map expr) s
  | .funcLit sig body s => .funcLit sig (body.mapStmts stmt) s
  | .paren x s => .paren (expr x) s
  | .selector x sel s => .selector (expr x) sel s
  | .index x indices s => .index (expr x) (indices.map expr) s
  | .slice x low high max three s =>
    .slice (expr x) (low.map expr) (high.map expr) (max.map expr) three s
  | .typeAssert x ty s => .typeAssert (expr x) ty s
  | .call fn args spread s => .call (expr fn) (args.map expr) spread s
  | .star x s => .star (expr x) s
  | .unary op x s => .unary op (expr x) s
  | .binary op x y s => .binary op (expr x) (expr y) s
  | .keyValue key value s => .keyValue (expr key) (expr value) s

/-- A line of a declaration group with other values. -/
def Spec.mapValues : Spec → Spec
  | .value names ty values s => .value names ty (values.map expr) s
  | .type name params isAlias ty s => .type name params isAlias ty s

/-- A clause of a switch with other parts. -/
def CaseClause.mapParts : CaseClause → CaseClause
  | .case list body s => .case (list.map expr) (body.flatMap stmt) s
  | .default body s => .default (body.flatMap stmt) s

/-- A clause of a select with other parts. -/
def CommClause.mapParts (c : CommClause) : CommClause :=
  ⟨Stmt.mapOption stmt c.comm, c.body.flatMap stmt, c.span⟩

/-- A statement with other parts; a label keeps an empty statement if nothing is left under it. -/
def Stmt.mapParts : Stmt → Stmt
  | .decl d => .decl { d with specs := d.specs.map (Spec.mapValues expr) }
  | .labeled label s span => .labeled label ((Stmt.single (stmt s)).getD (.empty span)) span
  | .expr x => .expr (expr x)
  | .send chan value span => .send (expr chan) (expr value) span
  | .incDec x inc span => .incDec (expr x) inc span
  | .assign lhs op rhs span => .assign (lhs.map expr) op (rhs.map expr) span
  | .go call span => .go (expr call) span
  | .defer call span => .defer (expr call) span
  | .returns results span => .returns (results.map expr) span
  | .branch kind label span => .branch kind label span
  | .empty span => .empty span
  | .block b => .block (b.mapStmts stmt)
  | .ifElse init cond body els span =>
    .ifElse (mapOption stmt init) (expr cond) (body.mapStmts stmt) (mapOption stmt els) span
  | .switch init tag clauses span =>
    .switch (mapOption stmt init) (tag.map expr) (clauses.map (CaseClause.mapParts stmt expr)) span
  | .typeSwitch init binding subject clauses span =>
    .typeSwitch (mapOption stmt init) binding (expr subject)
      (clauses.map (CaseClause.mapParts stmt expr)) span
  | .select clauses span => .select (clauses.map (CommClause.mapParts stmt)) span
  | .loop init cond post body span =>
    .loop (mapOption stmt init) (cond.map expr) (mapOption stmt post) (body.mapStmts stmt) span
  | .range key value define x body span =>
    .range (key.map expr) (value.map expr) define (expr x) (body.mapStmts stmt) span

end Map

/-! ### Editors -/

namespace Editor

variable {E : Editor Id}

/-- The body of a function literal becomes what is made of its statements. -/
def KeepsLits (E : Editor Id) : Prop :=
  ∀ sig body inside, E.onLit sig body inside = inside

/-- What becomes of an expression that is used for its value. -/
def exprOf (E : Editor Id) (x : Expr) : Expr :=
  Id.run (E.expr .use x)

/-- What becomes of a statement. -/
def stmtOf (E : Editor Id) (s : Stmt) : List Stmt :=
  Id.run (E.stmt s)

variable (hexpr : E.KeepsExprs)

include hexpr

theorem expr_eq_exprOf (role : Role) (x : Expr) : E.expr role x = E.exprOf x := by
  unfold exprOf
  cases x <;> rw [expr, hexpr, expr, hexpr] <;> rfl

theorem exprs_eq_map (role : Role) (xs : List Expr) : E.exprs role xs = xs.map E.exprOf := by
  induction xs with
  | nil => rfl
  | cons x xs ih =>
    rw [exprs, expr_eq_exprOf hexpr, ih]
    rfl

theorem expr?_eq_map (role : Role) (x : Option Expr) : E.expr? role x = x.map E.exprOf := by
  cases x with
  | none => rfl
  | some x =>
    rw [expr?, expr_eq_exprOf hexpr]
    rfl

theorem genDecl_eq_map (d : GenDecl) :
    E.genDecl d = { d with specs := d.specs.map (Spec.mapValues E.exprOf) } := by
  obtain ⟨kind, ss, grouped, directives, span⟩ := d
  have hspecs : E.specs ss = ss.map (Spec.mapValues E.exprOf) := by
    induction ss with
    | nil => rfl
    | cons s ss ih =>
      cases s with
      | value names ty values span =>
        rw [specs, exprs_eq_map hexpr, ih]
        rfl
      | type name params isAlias ty span =>
        rw [specs, ih]
        rfl
  rw [genDecl, hspecs]
  rfl

omit hexpr in
theorem stmts_eq_flatMap (ss : List Stmt) : E.stmts ss = ss.flatMap E.stmtOf := by
  induction ss with
  | nil => rfl
  | cons s ss ih =>
    rw [stmts, ih]
    rfl

omit hexpr in
theorem block_eq_mapStmts (b : Block) : E.block b = b.mapStmts E.stmtOf := by
  obtain ⟨ss, span⟩ := b
  rw [block, stmts_eq_flatMap]
  rfl

omit hexpr in
theorem stmt?_eq_mapOption (s : Option Stmt) : E.stmt? s = Stmt.mapOption E.stmtOf s := by
  cases s with
  | none | some s => rfl

theorem cases_eq_map (cs : List CaseClause) :
    E.cases cs = cs.map (CaseClause.mapParts E.stmtOf E.exprOf) := by
  induction cs with
  | nil => rfl
  | cons c cs ih =>
    cases c with
    | case list body span =>
      rw [cases, exprs_eq_map hexpr, stmts_eq_flatMap, ih]
      rfl
    | default body span =>
      rw [cases, stmts_eq_flatMap, ih]
      rfl

omit hexpr in
theorem comms_eq_map (cs : List CommClause) :
    E.comms cs = cs.map (CommClause.mapParts E.stmtOf) := by
  induction cs with
  | nil => rfl
  | cons c cs ih =>
    obtain ⟨comm, body, span⟩ := c
    rw [comms, stmt?_eq_mapOption, stmts_eq_flatMap, ih]
    rfl

/-- An expression becomes the same expression with edited parts. -/
theorem exprOf_eq_mapParts (hlit : E.KeepsLits) (x : Expr) :
    E.exprOf x = x.mapParts E.stmtOf E.exprOf := by
  rw [exprOf]
  cases x with
  | ident | lit | type =>
    rw [expr, hexpr]
    rfl
  | _ =>
    rw [expr, hexpr]
    simp only [hlit _ _ _, expr_eq_exprOf hexpr, exprs_eq_map hexpr, expr?_eq_map hexpr,
      block_eq_mapStmts]
    rfl

/-- A statement becomes what the hook makes of the same statement with edited parts. -/
theorem stmtOf_eq_onStmt (s : Stmt) :
    E.stmtOf s = E.onStmt s (s.mapParts E.stmtOf E.exprOf) := by
  rw [stmtOf]
  cases s with
  | labeled | branch | empty =>
    rw [stmt]
    rfl
  | _ =>
    rw [stmt]
    simp only [expr_eq_exprOf hexpr, exprs_eq_map hexpr, expr?_eq_map hexpr, genDecl_eq_map hexpr,
      block_eq_mapStmts, stmt?_eq_mapOption, cases_eq_map hexpr, comms_eq_map]
    rfl

end Editor

/-! ### The parts of the result -/

section Parts

variable {stmt : Stmt → List Stmt} {expr : Expr → Expr}

/-- A part of an edited tree is made of one of some parts of the tree, or fills the place of one. -/
inductive Part.MadeOf (stmt : Stmt → List Stmt) (expr : Expr → Expr) (before : List Part) :
    Part → Prop
  | expr {role : Role} {x : Expr} (hx : .expr role x ∈ before) (role' : Role) :
    MadeOf stmt expr before (.expr role' (expr x))
  | stmt {s t : Stmt} (hs : .stmt s ∈ before) (ht : t ∈ stmt s) : MadeOf stmt expr before (.stmt t)
  | empty (span : Span) : MadeOf stmt expr before (.stmt (.empty span))

/-- All parts of a list are made of the parts of another one. -/
def AllMadeOf (stmt : Stmt → List Stmt) (expr : Expr → Expr) (before after : List Part) : Prop :=
  ∀ p ∈ after, p.MadeOf stmt expr before

namespace AllMadeOf

variable {before after before' after' : List Part}

theorem mono (h : AllMadeOf stmt expr before after) (hsub : before ⊆ before') :
    AllMadeOf stmt expr before' after := by
  intro p hp
  cases h p hp with
  | expr hx role' => exact .expr (hsub hx) role'
  | stmt hs ht => exact .stmt (hsub hs) ht
  | empty span => exact .empty span

theorem append (h : AllMadeOf stmt expr before after) (h' : AllMadeOf stmt expr before' after') :
    AllMadeOf stmt expr (before ++ before') (after ++ after') :=
  List.forall_mem_append.mpr
    ⟨h.mono (List.subset_append_left _ _), h'.mono (List.subset_append_right _ _)⟩

theorem nil : AllMadeOf stmt expr before [] :=
  List.forall_mem_nil _

theorem exprs (role role' : Role) (xs : List Expr) :
    AllMadeOf stmt expr (xs.map (.expr role)) ((xs.map expr).map (.expr role')) := by
  intro p hp
  obtain ⟨y, hy, rfl⟩ := List.mem_map.mp hp
  obtain ⟨x, hx, rfl⟩ := List.mem_map.mp hy
  exact .expr (List.mem_map_of_mem hx) role'

theorem expr? (role role' : Role) (x : Option Expr) :
    AllMadeOf stmt expr (x.toList.map (.expr role)) ((x.map expr).toList.map (.expr role')) := by
  rw [Option.toList_map]
  exact exprs role role' x.toList

theorem consExpr (role role' : Role) (x : Expr) (h : AllMadeOf stmt expr before after) :
    AllMadeOf stmt expr (.expr role x :: before) (.expr role' (expr x) :: after) :=
  (exprs role role' [x]).append h

theorem stmts (ss : List Stmt) :
    AllMadeOf stmt expr (ss.map .stmt) ((ss.flatMap stmt).map .stmt) := by
  intro p hp
  obtain ⟨t, ht, rfl⟩ := List.mem_map.mp hp
  obtain ⟨s, hs, ht⟩ := List.mem_flatMap.mp ht
  exact .stmt (List.mem_map_of_mem hs) ht

theorem clauses {α : Type} {parts : α → List Part} {edit : α → α}
    (h : ∀ c, AllMadeOf stmt expr (parts c) (parts (edit c))) (cs : List α) :
    AllMadeOf stmt expr (cs.flatMap parts) ((cs.map edit).flatMap parts) := by
  intro p hp
  obtain ⟨c', hc', hp⟩ := List.mem_flatMap.mp hp
  obtain ⟨c, hc, rfl⟩ := List.mem_map.mp hc'
  exact (h c).mono (fun _ hq => List.mem_flatMap.mpr ⟨c, hc, hq⟩) p hp

end AllMadeOf

/-- Where only one statement can stand, there is at most one. -/
theorem Stmt.mem_of_single {ss : List Stmt} {t : Stmt} (hss : ss.length ≤ 1)
    (ht : Stmt.single ss = some t) : t ∈ ss := by
  cases ss with
  | nil => cases ht
  | cons u us =>
    cases us with
    | nil =>
      cases ht
      exact List.mem_singleton_self _
    | cons => simp at hss

theorem AllMadeOf.stmt? (hstmt : ∀ s, (stmt s).length ≤ 1) (s : Option Stmt) :
    AllMadeOf stmt expr (s.toList.map .stmt) ((Stmt.mapOption stmt s).toList.map .stmt) := by
  intro p hp
  obtain ⟨t, ht, rfl⟩ := List.mem_map.mp hp
  obtain ⟨u, hu, ht⟩ := Option.bind_eq_some_iff.mp (Option.mem_toList.mp ht)
  refine .stmt (List.mem_map_of_mem (Option.mem_toList.mpr hu)) (Stmt.mem_of_single (hstmt u) ht)

theorem CaseClause.allMadeOf (c : CaseClause) :
    AllMadeOf stmt expr c.parts (c.mapParts stmt expr).parts := by
  cases c with
  | case list body span => exact (AllMadeOf.exprs _ _ list).append (.stmts body)
  | default body span => exact .stmts body

theorem CommClause.allMadeOf (hstmt : ∀ s, (stmt s).length ≤ 1) (c : CommClause) :
    AllMadeOf stmt expr c.parts (c.mapParts stmt).parts := by
  obtain ⟨comm, body, span⟩ := c
  simp only [CommClause.parts, CommClause.mapParts, List.map_append]
  exact (AllMadeOf.stmt? hstmt comm).append (.stmts body)

theorem Spec.allMadeOf (s : Spec) : AllMadeOf stmt expr s.parts (s.mapValues expr).parts := by
  cases s with
  | value names ty values span => exact .exprs _ _ values
  | type => exact .nil

/-- The parts of a statement with edited parts are made of its parts. -/
theorem Stmt.allMadeOf (hstmt : ∀ s, (stmt s).length ≤ 1) (s : Stmt) :
    AllMadeOf stmt expr s.parts (s.mapParts stmt expr).parts := by
  cases s with
  | decl d => exact .clauses Spec.allMadeOf d.specs
  | labeled label s span =>
    refine List.forall_mem_singleton.mpr ?_
    cases hs : Stmt.single (stmt s) with
    | none => exact .empty span
    | some t => exact .stmt (List.mem_singleton_self _) (mem_of_single (hstmt s) hs)
  | expr x => exact .consExpr _ _ x .nil
  | send chan value span => exact .consExpr _ _ chan (.consExpr _ _ value .nil)
  | incDec x inc span => exact .consExpr _ _ x .nil
  | assign lhs op rhs span => exact (AllMadeOf.exprs _ _ lhs).append (.exprs _ _ rhs)
  | go call span | defer call span => exact .consExpr _ _ call .nil
  | returns results span => exact .exprs _ _ results
  | branch | empty => exact .nil
  | block b => exact .stmts b.stmts
  | ifElse init cond body els span =>
    simp only [Stmt.parts, Stmt.mapParts, Block.mapStmts, List.map_append]
    exact .consExpr _ _ cond (((AllMadeOf.stmt? hstmt init).append (.stmts _)).append
      (.stmt? hstmt els))
  | switch init tag clauses span =>
    exact ((AllMadeOf.stmt? hstmt init).append (.expr? _ _ tag)).append
      (.clauses CaseClause.allMadeOf clauses)
  | typeSwitch init binding subject clauses span =>
    exact (AllMadeOf.consExpr _ _ subject (.stmt? hstmt init)).append
      (.clauses CaseClause.allMadeOf clauses)
  | select clauses span => exact .clauses (CommClause.allMadeOf hstmt) clauses
  | loop init cond post body span =>
    simp only [Stmt.parts, Stmt.mapParts, Block.mapStmts, List.map_append]
    exact (AllMadeOf.expr? _ _ cond).append
      (((AllMadeOf.stmt? hstmt init).append (.stmt? hstmt post)).append (.stmts _))
  | range key value define x body span =>
    simp only [Stmt.parts, Stmt.mapParts, Block.mapStmts, List.map_append]
    exact (AllMadeOf.consExpr _ _ x ((AllMadeOf.expr? _ _ key).append (.expr? _ _ value))).append
      (.stmts _)

/-- The key and value of an element stay a key and a value, and other elements have none. -/
theorem Expr.allMadeOf_elt (hexpr : ∀ x, expr x = x.mapParts stmt expr) (keyed keyed' : Bool)
    (x : Expr) : AllMadeOf stmt expr (x.eltParts keyed) ((expr x).eltParts keyed') := by
  have hone : AllMadeOf stmt expr [.expr .use x] [.expr .use (x.mapParts stmt expr)] :=
    hexpr x ▸ .consExpr _ _ x .nil
  rw [hexpr]
  cases x with
  | keyValue key value span => exact .consExpr _ _ key (.consExpr _ _ value .nil)
  | _ => exact hone

/-- The parts of an expression with edited parts are made of its parts. -/
theorem Expr.allMadeOf (hexpr : ∀ x, expr x = x.mapParts stmt expr) (x : Expr) :
    AllMadeOf stmt expr x.parts (x.mapParts stmt expr).parts := by
  cases x with
  | ident | lit | type => exact .nil
  | composite ty elts span =>
    refine (AllMadeOf.expr? _ _ ty).append ?_
    intro p hp
    obtain ⟨y, hy, hp⟩ := List.mem_flatMap.mp hp
    obtain ⟨x, hx, rfl⟩ := List.mem_map.mp hy
    exact (allMadeOf_elt hexpr _ _ x).mono (fun _ hq => List.mem_flatMap.mpr ⟨x, hx, hq⟩) p hp
  | funcLit sig body span => exact .stmts body.stmts
  | paren x | selector x | star x | unary op x | typeAssert x => exact .consExpr _ _ x .nil
  | index x indices span => exact .consExpr _ _ x (.exprs _ _ indices)
  | slice x low high max three span =>
    simp only [Expr.parts, Expr.mapParts, List.map_append]
    exact .consExpr _ _ x (((AllMadeOf.expr? _ _ low).append (.expr? _ _ high)).append
      (.expr? _ _ max))
  | call fn args spread span => exact .consExpr _ _ fn (.exprs _ _ args)
  | binary op x y span => exact .consExpr _ _ x (.consExpr _ _ y .nil)
  | keyValue key value span => exact .consExpr _ _ key (.consExpr _ _ value .nil)

end Parts

end ServiceSplit
