import ServiceSplit.Proofs.Editor.Rebuilding
import ServiceSplit.Proofs.LiteralFree

/-!
# Editors that leave a tree alone

An editor that does nothing at each statement, expression and function literal of a tree leaves the
whole tree as it is, and its action does nothing. If its hook for expressions does nothing, that is
so of expressions without function literals.
-/

namespace ServiceSplit

/-- The computation does nothing but give a value that has the property. -/
def Outcomes.plain {m : Type → Type} [Monad m] [LawfulMonad m] : Outcomes m where
  Gives x P := ∃ a, x = Pure.pure a ∧ P a
  pure h := ⟨_, rfl, h⟩
  bind := by
    rintro _ _ _ _ _ f ⟨a, rfl, ha⟩ hf
    rw [pure_bind]
    exact hf a ha

namespace Change

/-- Everything stays as it is. -/
def nothing : Change where
  expr x y := y = x
  stmt s ts := ts = [s]
  lit b b' := b' = b

theorem eq_of_forall₂ {α : Type} {R : α → α → Prop} {as bs : List α} (h : List.Forall₂ R as bs)
    (hR : ∀ a b, R a b → b = a) : bs = as := by
  induction h with
  | nil => rfl
  | cons hab _ ih => rw [hR _ _ hab, ih]

namespace nothing

theorem inStmts {ss ts : List Stmt} (h : nothing.InStmts ss ts) : ts = ss := by
  induction h with
  | nil => rfl
  | cons hs _ ih =>
    cases hs
    rw [ih, List.singleton_append]

theorem inStmt? {s t : Option Stmt} : nothing.InStmt? s t → t = s := by
  rintro ⟨ts, hts, rfl⟩
  rw [inStmts hts]
  cases s <;> rfl

theorem inBlock {b b' : Block} : nothing.InBlock b b' → b' = b := by
  rintro ⟨hss⟩
  rw [inStmts hss]

theorem inExprs {xs ys : List Expr} (h : nothing.InExprs xs ys) : ys = xs :=
  eq_of_forall₂ h fun _ _ => id

theorem inExpr? {x y : Option Expr} (h : nothing.InExpr? x y) : y = x := by
  cases x <;> cases y <;> cases h <;> simp_all [nothing]

theorem inGenDecl {d d' : GenDecl} : nothing.InGenDecl d d' → d' = d := by
  rintro ⟨hspecs⟩
  rw [eq_of_forall₂ hspecs]
  rintro _ _ (hxs | _)
  · rw [inExprs hxs]
  · rfl

theorem inCases {cs ds : List CaseClause} (h : List.Forall₂ nothing.InCase cs ds) : ds = cs := by
  refine eq_of_forall₂ h ?_
  rintro _ _ (⟨hxs, hss⟩ | hss)
  · rw [inExprs hxs, inStmts hss]
  · rw [inStmts hss]

theorem inComms {cs ds : List CommClause} (h : List.Forall₂ nothing.InComm cs ds) : ds = cs := by
  refine eq_of_forall₂ h ?_
  rintro _ _ ⟨hcomm, hbody⟩
  rw [inStmt? hcomm, inStmts hbody]

theorem inExpr {x y : Expr} (h : nothing.InExpr x y) : y = x := by
  cases h <;> grind [nothing, inExprs, inExpr?]

theorem inStmt {s t : Stmt} (h : nothing.InStmt s t) : t = s := by
  cases h <;> grind [nothing, inExprs, inExpr?, inBlock, inStmt?, inGenDecl, inCases, inComms,
    Stmt.single]

end nothing

end Change

namespace Editor

variable {m : Type → Type} [Monad m] {E : Editor m}

/-- The editor does nothing at a statement, an expression or a function literal, if the parts stay
as they are. -/
def leaves (E : Editor m) : NodeProp where
  stmt s := E.onStmt s (pure s) = pure [s]
  expr x := (∀ role, E.onExpr role x (pure x) = pure x) ∧
    ∀ sig body span, x = .funcLit sig body span → E.onLit sig body (pure body) = pure body

/-- An expression becomes what is made of its parts. -/
def KeepsExprs (E : Editor m) : Prop :=
  ∀ role e inside, E.onExpr role e inside = inside

variable [LawfulMonad m]

theorem makes_nothing (hpairs : ∀ k v sp, E.leaves.expr (.keyValue k v sp)) :
    E.Makes .plain E.leaves .nothing where
  onStmt := by
    rintro s _ hs ⟨t, rfl, ht⟩
    cases Change.nothing.inStmt ht
    exact ⟨[s], ((Stmt.every_iff _ s).mp hs).1, rfl⟩
  onExpr := by
    rintro role x _ hx ⟨y, rfl, hy⟩
    cases Change.nothing.inExpr hy
    exact ⟨x, ((Expr.every_iff _ hpairs x).mp hx).1.1 role, rfl⟩
  onLit := by
    rintro sig body span _ hx ⟨b, rfl, hb⟩
    cases Change.nothing.inBlock hb
    exact ⟨body, ((Expr.every_iff _ hpairs _).mp hx).1.2 sig body span rfl, rfl⟩
  pairs := hpairs

/-- A block stays as it is if the editor does nothing at its parts. -/
theorem block_eq_pure (hpairs : ∀ k v sp, E.leaves.expr (.keyValue k v sp)) {b : Block}
    (h : b.Every E.leaves) : E.block b = pure b := by
  obtain ⟨b', heq, hb'⟩ := (makes_nothing hpairs).block h
  rw [heq, Change.nothing.inBlock hb']

/-- A declaration group stays as it is if the editor does nothing at its parts. -/
theorem genDecl_eq_pure (hpairs : ∀ k v sp, E.leaves.expr (.keyValue k v sp)) {d : GenDecl}
    (h : ∀ spec ∈ d.specs, spec.Every E.leaves) : E.genDecl d = pure d := by
  obtain ⟨d', heq, hd'⟩ := (makes_nothing hpairs).genDecl h
  rw [heq, Change.nothing.inGenDecl hd']

end Editor

/-! ### Expressions without function literals -/

/-- There are no function literals, and no statements, which stand in expressions only inside
them. -/
def NodeProp.unnested : NodeProp where
  expr x := ∀ sig body span, x ≠ .funcLit sig body span
  stmt _ := False

private def Dry (es : List Event) : Prop :=
  LiteralFree es → Event.AllHave .unnested es

private theorem dry_nil : Dry [] :=
  fun _ => Event.allHave_nil

private theorem Dry.append {es fs : List Event} (h : Dry es) (h' : Dry fs) : Dry (es ++ fs) := by
  intro hlit
  rw [literalFree_append] at hlit
  exact Event.allHave_append.mpr ⟨h hlit.1, h' hlit.2⟩

private theorem Dry.type {t : TypeExpr} {es : List Event} (h : Dry es) : Dry (.type t :: es) :=
  fun hlit => Event.allHave_cons.mpr ⟨trivial, h ((literalFree_cons _ es).mp hlit).2⟩

private theorem Dry.expr {role : Role} {x : Expr} {es : List Event}
    (hx : ∀ sig body span, x ≠ .funcLit sig body span) (h : Dry es) : Dry (.expr role x :: es) :=
  fun hlit => Event.allHave_cons.mpr ⟨hx, h ((literalFree_cons _ es).mp hlit).2⟩

private theorem Dry.flatMap {α : Type} {as : List α} {f : α → List Event}
    (h : ∀ a ∈ as, Dry (f a)) :
    Dry (as.flatMap f) := by
  intro hlit
  refine Event.allHave_flatMap.mpr fun a ha => h a ha fun e he => hlit e ?_
  exact List.mem_flatMap.mpr ⟨a, ha, he⟩

attribute [local grind ←] dry_nil Dry.append Dry.type Dry.expr Dry.flatMap

private theorem dry_steps : TreeSteps (fun t => Dry (t.events {}))
    (fun x => ∀ role, Dry (x.events {} role)) (fun _ => True) := by
  constructor
  case' toExprSteps => constructor
  case funcLit => simp [Dry, Expr.events, Event.opensLit]
  case composite =>
    intro ty elts sp hty helts hpairs role
    simp only [Expr.events, Bool.false_eq_true, if_false, exprEvents?_eq, eltsEvents_eq]
    have helt : ∀ x ∈ elts, ∀ keyed, Dry (x.eltEvents {} keyed) := by
      intro x hx keyed
      cases x with
      | keyValue k v sp => exact ((hpairs k v sp hx).1 _).append ((hpairs k v sp hx).2 _)
      | _ => exact helts _ hx _
    grind
  case interface =>
    intro es hmethod hembedded
    rw [TypeExpr.events, elemsEvents_eq]
    refine .type (.flatMap fun e he => ?_)
    cases e with
    | method id sig =>
      rw [InterfaceElem.events, Signature.events_eq]
      grind
    | embedded t => exact hembedded t he
  case name | pointer | sliceType | array | map | chan | func | struct | ellipsis | union |
      parenType =>
    intros
    simp only [TypeExpr.events, typesEvents_eq, exprEvents?_eq, fieldsEvents_eq, termsEvents_eq,
      Signature.events_eq]
    grind
  case ident | lit | paren | selector | index | slice | typeAssert | call | star | unary | binary |
      keyValue | type =>
    intros
    simp only [Expr.events, Bool.false_eq_true, if_false, typeEvents?_eq, exprEvents?_eq,
      exprsEvents_eq]
    grind
  -- What is left is about statements.
  all_goals intros; trivial

namespace Editor.KeepsExprs

variable {m : Type → Type} [Monad m] [LawfulMonad m] {E : Editor m}

theorem makes (hE : E.KeepsExprs) : E.Makes .plain .unnested .nothing where
  onStmt s _ hs := ((Stmt.every_iff _ s).mp hs).1.elim
  onExpr := by
    rintro role x _ - ⟨y, rfl, hy⟩
    rw [hE]
    exact ⟨y, rfl, Change.nothing.inExpr hy⟩
  onLit sig body span _ hx :=
    absurd rfl (((Expr.every_iff _ (fun _ _ _ _ _ _ => nofun) _).mp hx).1 sig body span)
  pairs := fun _ _ _ _ _ _ => nofun

/-- An expression without function literals stays as it is. -/
theorem expr_eq (hE : E.KeepsExprs) {x : Expr} {role : Role} (h : LiteralFree (x.events {} role))
    (role' : Role) : E.expr role' x = pure x := by
  obtain ⟨y, heq, hy⟩ := hE.makes.expr (Expr.allHave_events.mp (dry_steps.expr x role h)) role'
  rw [heq, hy]

/-- Expressions without function literals stay as they are. -/
theorem exprs_eq (hE : E.KeepsExprs) {xs : List Expr} {role : Role}
    (h : LiteralFree (exprsEvents {} role xs)) (role' : Role) : E.exprs role' xs = pure xs := by
  induction xs with
  | nil => rfl
  | cons x xs ih =>
    rw [exprsEvents, literalFree_append] at h
    rw [exprs, hE.expr_eq h.1, ih h.2, consM, pure_bind, pure_bind]

/-- An optional expression without function literals stays as it is. -/
theorem range?_eq (hE : E.KeepsExprs) {x : Option Expr} {role : Role}
    (h : LiteralFree (rangeEvents? {} role x)) (role' : Role) : E.expr? role' x = pure x := by
  cases x with
  | none => rfl
  | some x => rw [expr?, hE.expr_eq h, map_pure]

theorem expr?_eq (hE : E.KeepsExprs) {x : Option Expr} (h : LiteralFree (exprEvents? {} x))
    (role' : Role) : E.expr? role' x = pure x :=
  hE.range?_eq (show LiteralFree (rangeEvents? {} .use x) by cases x <;> exact h) role'

/-- A declaration group without function literals stays as it is. -/
theorem genDecl_eq (hE : E.KeepsExprs) {d : GenDecl} (h : LiteralFree (d.events {})) :
    E.genDecl d = pure d := by
  have hspecs : ∀ spec ∈ d.specs, spec.Every .unnested := by
    intro spec hspec
    rw [GenDecl.events_eq] at h
    have hdry : Dry (spec.events {}) := by
      cases spec <;> simp only [Spec.events, typeEvents?_eq, exprsEvents_eq, fieldsEvents_eq] <;>
        grind [dry_steps.expr, dry_steps.typeExpr]
    exact Spec.allHave_events.mp (hdry fun e he => h e (List.mem_flatMap.mpr ⟨spec, hspec, he⟩))
  obtain ⟨d', heq, hd'⟩ := hE.makes.genDecl hspecs
  rw [heq, Change.nothing.inGenDecl hd']

end Editor.KeepsExprs

end ServiceSplit
