import ServiceSplit.Proofs.LiteralFree
import ServiceSplit.Proofs.Tree.Traversal
import ServiceSplit.Sends

/-!
# Walks through expressions

Only the function literals of an expression send. What is known of walks through them is therefore
known of walks through types and expressions, and a walk passes over those without function literals
and learns nothing from them.
-/

namespace ServiceSplit.Sends

/-- What is known of walks from a path is kept when one walk follows another. -/
structure Chained (G : Path → Walk Path → Prop) : Prop where
  pure : ∀ p, G p (pure p)
  bind : ∀ {p m f}, G p m → (∀ q, G q (f q)) → G p (m >>= f)

variable {channels : List String} {G : Path → Walk Path → Prop} {P : Event → Prop}

theorem Chained.list (hG : Chained G) {α : Type} {f : List α → Path → Walk Path}
    (step : α → Path → Walk Path) (hnil : ∀ p, f [] p = Pure.pure p)
    (hcons : ∀ a as p, f (a :: as) p = step a p >>= f as) {as : List α}
    (h : ∀ a ∈ as, ∀ p, G p (step a p)) (p : Path) : G p (f as p) := by
  induction as generalizing p with
  | nil => exact hnil p ▸ hG.pure p
  | cons a as ih =>
    rw [List.forall_mem_cons] at h
    rw [hcons]
    exact hG.bind (h.1 p) (ih h.2)

theorem Chained.option (hG : Chained G) {α : Type} {f : Option α → Path → Walk Path} {o : Option α}
    (hnone : ∀ p, f none p = Pure.pure p) (h : ∀ a ∈ o, ∀ p, G p (f (some a) p)) (p : Path) :
    G p (f o p) := by
  cases o with
  | none => exact hnone p ▸ hG.pure p
  | some a => exact h a rfl p

/-- It is known of a walk through a type, if it has such events. -/
def WalksType (G : Path → Walk Path → Prop) (P : Event → Prop) (channels : List String)
    (t : TypeExpr) : Prop :=
  (∀ e ∈ t.events {}, P e) → ∀ p, G p (type channels t p)

/-- It is known of a walk through an expression, if it has such events. -/
def WalksExpr (G : Path → Walk Path → Prop) (P : Event → Prop) (channels : List String)
    (x : Expr) : Prop :=
  ∀ role, (∀ e ∈ x.events {} role, P e) → ∀ p, G p (expr channels x p)

section

variable (hG : Chained G)

include hG

private theorem walks_fields {fs : List Field} (ih : ∀ f ∈ fs, WalksType G P channels f.ty)
    (h : ∀ f ∈ fs, ∀ e ∈ f.ty.events {}, P e) : ∀ p, G p (fields channels fs p) :=
  hG.list _ (fun _ => rfl) (fun f _ _ => by cases f; rw [fields]) fun f hf => ih f hf (h f hf)

private theorem walks_signature {sig : Signature}
    (ihp : ∀ f ∈ sig.params, WalksType G P channels f.ty)
    (ihr : ∀ f ∈ sig.results, WalksType G P channels f.ty) (h : ∀ e ∈ sig.events {}, P e)
    (p : Path) :
    G p (signature channels sig p) := by
  rw [Signature.events_eq, List.forall_mem_flatMap, List.forall_mem_append] at h
  obtain ⟨params, results⟩ := sig
  rw [signature]
  exact hG.bind (walks_fields hG ihp h.1 p) (walks_fields hG ihr h.2)

theorem walks_exprs {xs : List Expr} (ih : ∀ x ∈ xs, ∀ p, G p (expr channels x p)) :
    ∀ p, G p (exprs channels xs p) :=
  hG.list _ (fun _ => rfl) (fun x _ _ => by rw [exprs]) ih

theorem walks_expr? {o : Option Expr} (ih : ∀ x ∈ o, ∀ p, G p (expr channels x p)) :
    ∀ p, G p (expr? channels o p) :=
  hG.option (fun _ => rfl) ih

/-- What is known of walks through function literals is known of walks through expressions. -/
theorem walks_steps {S : Stmt → Prop} (hlit : ∀ sig body sp role, (∀ s ∈ body.stmts, S s) →
      (∀ e ∈ (Expr.funcLit sig body sp).events {} role, P e) →
      ∀ p, G p (literal (block channels body {}) p)) :
    ExprSteps (WalksType G P channels) (WalksExpr G P channels) S := by
  constructor
  case name =>
    intro pkg n args ih h
    simp only [TypeExpr.events, typesEvents_eq, List.forall_mem_cons, List.forall_mem_flatMap] at h
    simp only [type]
    exact hG.list _ (fun _ => rfl) (fun t _ _ => by rw [types]) fun t ht => ih t ht (h.2 t ht)
  case pointer | sliceType | chan | ellipsis | parenType =>
    intros
    rename_i ih
    intro h p
    simp only [TypeExpr.events, List.forall_mem_cons] at h
    rw [type]
    exact ih h.2 p
  case array =>
    intro len t ihl iht h p
    simp only [TypeExpr.events, exprEvents?_eq, List.forall_mem_cons, List.forall_mem_append,
      List.forall_mem_flatMap, Option.mem_toList] at h
    rw [type]
    exact hG.bind (walks_expr? hG (fun x hx => ihl x hx _ (h.2.1 x hx)) p) (iht h.2.2)
  case map =>
    intro k v ihk ihv h p
    simp only [TypeExpr.events, List.forall_mem_cons, List.forall_mem_append] at h
    rw [type]
    exact hG.bind (ihk h.2.1 p) (ihv h.2.2)
  case func =>
    intro sig ihp ihr h p
    simp only [TypeExpr.events, List.forall_mem_cons] at h
    rw [type]
    exact walks_signature hG ihp ihr h.2 p
  case struct =>
    intro fs ih h p
    simp only [TypeExpr.events, fieldsEvents_eq, List.forall_mem_cons, List.forall_mem_flatMap] at h
    rw [type]
    exact walks_fields hG ih h.2 p
  case interface =>
    intro es ihm iht h
    simp only [TypeExpr.events, elemsEvents_eq, List.forall_mem_cons, List.forall_mem_flatMap] at h
    simp only [type]
    refine hG.list (fun e => elems channels [e]) (fun _ => rfl) (fun e es p => ?_) fun e he p => ?_
    · cases e <;> simp [elems]
    · have hevents := h.2 e he
      cases e with
      | method id sig =>
        obtain ⟨ihp, ihr⟩ := ihm id sig he
        simp only [elems, bind_pure]
        exact walks_signature hG ihp ihr hevents p
      | embedded t =>
        simp only [elems, bind_pure]
        exact iht t he hevents p
  case union =>
    intro ts ih h
    simp only [TypeExpr.events, termsEvents_eq, List.forall_mem_cons, List.forall_mem_flatMap] at h
    simp only [type]
    exact hG.list _ (fun _ => rfl) (fun t _ _ => by cases t; rw [terms]) fun t ht =>
      ih t ht (h.2 t ht)
  case ident | lit =>
    intros
    intro role h p
    simp only [expr]
    exact hG.pure p
  case composite =>
    intro ty elts sp iht ih ihkv role h p
    simp only [Expr.events, exprEvents?_eq, eltsEvents_eq, Bool.false_eq_true, ↓reduceIte,
      List.forall_mem_cons, List.forall_mem_append, List.forall_mem_flatMap, Option.mem_toList] at h
    obtain ⟨-, hty, helts⟩ := h
    rw [expr]
    refine hG.bind (walks_expr? hG (fun x hx => iht x hx _ (hty x hx)) p)
      (walks_exprs hG fun x hx p => ?_)
    have hevents := helts x hx
    cases x with
    | keyValue k v sp =>
      simp only [Expr.eltEvents, List.forall_mem_append] at hevents
      obtain ⟨ihk, ihv⟩ := ihkv k v sp hx
      rw [expr]
      exact hG.bind (ihk _ hevents.1 p) (ihv _ hevents.2)
    | _ => exact ih _ hx _ hevents p
  case funcLit =>
    intro sig body sp _ _ ih role h p
    rw [expr]
    exact hlit sig body sp role ih h p
  case paren | selector | star | unary =>
    intros
    rename_i ih
    intro role h p
    simp only [Expr.events, Bool.false_eq_true, ↓reduceIte, List.forall_mem_cons] at h
    rw [expr]
    exact ih _ h.2 p
  case index | call =>
    intros
    rename_i ih ihs
    intro role h p
    simp only [Expr.events, exprsEvents_eq, Bool.false_eq_true, ↓reduceIte, List.forall_mem_cons,
      List.forall_mem_append, List.forall_mem_flatMap] at h
    rw [expr]
    exact hG.bind (ih _ h.2.1 p) (walks_exprs hG fun x hx => ihs x hx _ (h.2.2 x hx))
  case slice =>
    intro x low high max three sp ih ihl ihh ihm role h p
    simp only [Expr.events, exprEvents?_eq, Bool.false_eq_true, ↓reduceIte, List.forall_mem_cons,
      List.forall_mem_append, List.forall_mem_flatMap, Option.mem_toList] at h
    obtain ⟨-, ⟨⟨hx, hlow⟩, hhigh⟩, hmax⟩ := h
    rw [expr]
    exact hG.bind (ih _ hx p) fun q =>
      hG.bind (walks_expr? hG (fun y hy => ihl y hy _ (hlow y hy)) q)
      fun q => hG.bind (walks_expr? hG (fun y hy => ihh y hy _ (hhigh y hy)) q)
        (walks_expr? hG fun y hy => ihm y hy _ (hmax y hy))
  case typeAssert =>
    intro x ty sp ih iht role h p
    simp only [Expr.events, typeEvents?_eq, Bool.false_eq_true, ↓reduceIte, List.forall_mem_cons,
      List.forall_mem_append, List.forall_mem_flatMap, Option.mem_toList] at h
    rw [expr]
    exact hG.bind (ih _ h.2.1 p) (hG.option (fun _ => rfl) fun t ht => iht t ht (h.2.2 t ht))
  case binary | keyValue =>
    intros
    rename_i ihx ihy
    intro role h p
    simp only [Expr.events, Bool.false_eq_true, ↓reduceIte, List.forall_mem_cons,
      List.forall_mem_append] at h
    rw [expr]
    exact hG.bind (ihx _ h.2.1 p) (ihy _ h.2.2)
  case type =>
    intro t sp ih role h p
    simp only [Expr.events, Bool.false_eq_true, ↓reduceIte, List.forall_mem_cons] at h
    rw [expr]
    exact ih h.2 p

end

/-! ### Expressions without function literals -/

private theorem chained_quiet : Chained fun p m => m = Pure.pure p where
  pure _ := rfl
  bind hm hf := by rw [hm, pure_bind, hf]

/-- A walk passes over an expression without function literals. -/
theorem expr_eq_pure {x : Expr} {role : Role} (h : LiteralFree (x.events {} role)) (p : Path) :
    expr channels x p = pure p := by
  have steps : ExprSteps _ (WalksExpr _ _ channels) fun _ => True :=
    walks_steps (P := fun e => e.opensLit = false) chained_quiet
      fun sig body sp role _ h => by simp [Expr.events, Event.opensLit] at h
  exact steps.tree.expr x role h p

/-- A walk passes over expressions without function literals. -/
theorem exprs_eq_pure {xs : List Expr} {role : Role} (h : LiteralFree (exprsEvents {} role xs))
    (p : Path) : exprs channels xs p = pure p := by
  rw [exprsEvents_eq] at h
  exact walks_exprs chained_quiet (fun x hx => expr_eq_pure (List.forall_mem_flatMap.mp h x hx)) p

/-- A walk passes over an optional expression without function literals. -/
theorem expr?_eq_pure {x : Option Expr} (h : LiteralFree (exprEvents? {} x)) (p : Path) :
    expr? channels x p = pure p := by
  rw [exprEvents?_eq] at h
  exact walks_expr? chained_quiet
    (fun y hy => expr_eq_pure (List.forall_mem_flatMap.mp h y (Option.mem_toList.mpr hy))) p

/-- A walk passes over a declaration group without function literals. -/
theorem genDecl_eq_pure {d : GenDecl} (h : LiteralFree (d.events {})) (p : Path) :
    genDecl channels d p = pure p := by
  obtain ⟨kind, ss, grouped, directives, sp⟩ := d
  simp only [GenDecl.events] at h
  rw [genDecl]
  induction ss with
  | nil => rfl
  | cons s ss ih =>
    cases s with
    | value names ty values sp =>
      simp only [specsEvents, literalFree_append] at h
      rw [specs, exprs_eq_pure h.1.2, pure_bind, ih h.2]
    | type id params isAlias ty sp =>
      simp only [specsEvents, literalFree_append] at h
      rw [specs, ih h.2]

end ServiceSplit.Sends
