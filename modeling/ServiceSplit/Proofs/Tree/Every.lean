import ServiceSplit.Proofs.Tree.Traversal

/-!
# What holds everywhere in a tree

A property of types, expressions and statements may say something of each of them alone: that a list
is not empty, or that a place lies in a text. A tree has such a property everywhere if all types,
expressions and statements that are reached on the way through it have it, those in types and
function literals included. Whether the way leads through the signatures of function literals is
part of the property.
-/

namespace ServiceSplit

/-- A property of types, expressions and statements. -/
structure NodeProp where
  /-- The property of types. -/
  type : TypeExpr → Prop := fun _ => True
  /-- The property of expressions. -/
  expr : Expr → Prop := fun _ => True
  /-- The property of statements. -/
  stmt : Stmt → Prop := fun _ => True
  /-- Whether the property is about the signatures of function literals. -/
  signatures : Bool := true

/-- The way through a tree on which the property is to hold. -/
def NodeProp.way (Q : NodeProp) : Traversal :=
  { signatures := Q.signatures }

@[simp] theorem NodeProp.way_skip (Q : NodeProp) (role : Role) (x : Expr) :
    Q.way.skip role x = false :=
  rfl

@[simp] theorem NodeProp.way_signatures (Q : NodeProp) : Q.way.signatures = Q.signatures :=
  rfl

namespace Event

/-- The type, expression or statement that is reached has the property. A function literal is
reached before it is opened. -/
def Has (Q : NodeProp) : Event → Prop
  | enter s => Q.stmt s
  | expr _ e => Q.expr e
  | type t => Q.type t
  | openLit sig span => ∃ body, Q.expr (.funcLit sig body span)
  | _ => True

/-- All that is reached on the way has the property. -/
def AllHave (Q : NodeProp) (es : List Event) : Prop :=
  ∀ e ∈ es, e.Has Q

variable {Q R : NodeProp} {es fs : List Event}

@[simp] theorem allHave_nil : AllHave Q [] :=
  nofun

@[simp] theorem allHave_append : AllHave Q (es ++ fs) ↔ AllHave Q es ∧ AllHave Q fs :=
  List.forall_mem_append

@[simp] theorem allHave_cons {e : Event} : AllHave Q (e :: es) ↔ e.Has Q ∧ AllHave Q es :=
  List.forall_mem_cons

@[simp] theorem allHave_flatMap {α : Type} {as : List α} {f : α → List Event} :
    AllHave Q (as.flatMap f) ↔ ∀ a ∈ as, AllHave Q (f a) := by
  simp only [AllHave, List.mem_flatMap]
  exact ⟨fun h a ha e he => h e ⟨a, ha, he⟩, fun h e ⟨a, ha, he⟩ => h a ha e he⟩

theorem AllHave.mono (h : AllHave Q es) (htype : ∀ t, Q.type t → R.type t)
    (hexpr : ∀ x, Q.expr x → R.expr x) (hstmt : ∀ s, Q.stmt s → R.stmt s) : AllHave R es := by
  intro e he
  cases e with
  | enter s => exact hstmt s (h _ he)
  | expr role x => exact hexpr x (h _ he)
  | type t => exact htype t (h _ he)
  | openLit sig span => exact (h _ he).imp fun _ => hexpr _
  | _ => trivial

end Event

/-- The property holds everywhere in a type. -/
def TypeExpr.Every (Q : NodeProp) (t : TypeExpr) : Prop :=
  Event.AllHave Q (t.events Q.way)

/-- The property holds everywhere in an expression. -/
def Expr.Every (Q : NodeProp) (e : Expr) : Prop :=
  Event.AllHave Q (e.events Q.way .use)

/-- The property holds everywhere in a statement. -/
def Stmt.Every (Q : NodeProp) (s : Stmt) : Prop :=
  Event.AllHave Q (s.events Q.way)

/-- The property holds everywhere in the parameters and results. -/
def Signature.Every (Q : NodeProp) (sig : Signature) : Prop :=
  (∀ f ∈ sig.params, f.ty.Every Q) ∧ ∀ f ∈ sig.results, f.ty.Every Q

/-- The property holds everywhere in a line of an interface type. -/
def InterfaceElem.Every (Q : NodeProp) : InterfaceElem → Prop
  | method _ sig => sig.Every Q
  | embedded ty => ty.Every Q

/-- The property holds everywhere in a block. -/
def Block.Every (Q : NodeProp) (b : Block) : Prop :=
  ∀ s ∈ b.stmts, s.Every Q

/-- The property holds everywhere in a line of a declaration group. -/
def Spec.Every (Q : NodeProp) : Spec → Prop
  | value _ ty values _ => (∀ t ∈ ty, t.Every Q) ∧ ∀ x ∈ values, x.Every Q
  | type _ params _ ty _ => (∀ f ∈ params, f.ty.Every Q) ∧ ty.Every Q

/-- The property holds everywhere in a clause of a switch. -/
def CaseClause.Every (Q : NodeProp) (c : CaseClause) : Prop :=
  (∀ x ∈ c.exprs, x.Every Q) ∧ ∀ s ∈ c.body, s.Every Q

/-- The property holds everywhere in a clause of a select. -/
def CommClause.Every (Q : NodeProp) (c : CommClause) : Prop :=
  (∀ s ∈ c.comm, s.Every Q) ∧ ∀ s ∈ c.body, s.Every Q

section Parts

variable {Q : NodeProp}

/-- How an expression is used does not matter. -/
@[simp] theorem Expr.allHave_events {e : Expr} {role : Role} :
    Event.AllHave Q (e.events Q.way role) ↔ e.Every Q := by
  cases e <;> simp [Every, Expr.events, Event.Has]

@[simp] theorem TypeExpr.allHave_events {t : TypeExpr} :
    Event.AllHave Q (t.events Q.way) ↔ t.Every Q :=
  Iff.rfl

@[simp] theorem Stmt.allHave_events {s : Stmt} : Event.AllHave Q (s.events Q.way) ↔ s.Every Q :=
  Iff.rfl

@[simp] theorem Signature.allHave_events {sig : Signature} :
    Event.AllHave Q (sig.events Q.way) ↔ sig.Every Q := by
  rw [Signature.events_eq, List.flatMap_append]
  simp [Every]

@[simp] theorem InterfaceElem.allHave_events {e : InterfaceElem} :
    Event.AllHave Q (e.events Q.way) ↔ e.Every Q := by
  cases e <;> simp [InterfaceElem.events, Every]

@[simp] theorem Block.allHave_events {b : Block} :
    Event.AllHave Q (b.events Q.way) ↔ b.Every Q := by
  simp [Block.events_eq, Every]

@[simp] theorem Spec.allHave_events {s : Spec} :
    Event.AllHave Q (s.events Q.way) ↔ s.Every Q := by
  cases s <;> simp [Spec.events, Every, typeEvents?_eq, exprsEvents_eq, fieldsEvents_eq]

end Parts

variable (Q : NodeProp)

theorem TypeExpr.every_iff (t : TypeExpr) : t.Every Q ↔ Q.type t ∧ match t with
    | .name _ _ args => ∀ a ∈ args, a.Every Q
    | .pointer e | .slice e | .chan _ e | .ellipsis e | .paren e => e.Every Q
    | .array len e => (∀ x ∈ len, x.Every Q) ∧ e.Every Q
    | .map k v => k.Every Q ∧ v.Every Q
    | .func sig => sig.Every Q
    | .struct fields => ∀ f ∈ fields, f.ty.Every Q
    | .interface elems => ∀ e ∈ elems, e.Every Q
    | .union terms => ∀ t ∈ terms, t.ty.Every Q := by
  rw [Every]
  cases t <;> simp [TypeExpr.events, Event.Has, typesEvents_eq, exprEvents?_eq, fieldsEvents_eq,
    elemsEvents_eq, termsEvents_eq]

/-- The property holds everywhere in the parts of an expression. -/
def Expr.EveryPart : Expr → Prop
  | .ident _ | .lit .. => True
  | .composite ty elts _ => (∀ x ∈ ty, x.Every Q) ∧ ∀ x ∈ elts, x.Every Q
  | .funcLit sig body _ => (Q.signatures = true → sig.Every Q) ∧ body.Every Q
  | .paren x _ | .selector x _ _ | .star x _ | .unary _ x _ => x.Every Q
  | .index x indices _ => x.Every Q ∧ ∀ i ∈ indices, i.Every Q
  | .slice x low high max _ _ => x.Every Q ∧
    (∀ y ∈ low, y.Every Q) ∧ (∀ y ∈ high, y.Every Q) ∧ ∀ y ∈ max, y.Every Q
  | .typeAssert x ty _ => x.Every Q ∧ ∀ t ∈ ty, t.Every Q
  | .call fn args _ _ => fn.Every Q ∧ ∀ a ∈ args, a.Every Q
  | .binary _ x y _ | .keyValue x y _ => x.Every Q ∧ y.Every Q
  | .type ty _ => ty.Every Q

/-- A key and its value in a composite literal are reached without the pair; the property of pairs
is about them alone. -/
theorem Expr.every_iff (hpair : ∀ k v sp, Q.expr (.keyValue k v sp)) (e : Expr) :
    e.Every Q ↔ Q.expr e ∧ e.EveryPart Q := by
  have helt : ∀ (keyed : Bool) (x : Expr),
      Event.AllHave Q (x.eltEvents Q.way keyed) ↔ x.Every Q := by
    intro keyed x
    cases x with
    | keyValue key value span =>
      rw [Every, Expr.events]
      simp [Expr.eltEvents, Event.Has, hpair]
    | _ => simp [Expr.eltEvents]
  rw [Every]
  cases e with
  | funcLit sig body span =>
    have hsig : Event.AllHave Q (if Q.signatures = true then sig.events Q.way else []) ↔
        (Q.signatures = true → sig.Every Q) := by
      split <;> simp [*]
    simp only [Expr.events, NodeProp.way_skip, NodeProp.way_signatures, Bool.false_eq_true,
      if_false,
      Event.allHave_cons, Event.allHave_append, Event.allHave_nil, Event.Has, EveryPart,
      Block.allHave_events]
    constructor
    · rintro ⟨h, ⟨⟨-, hs⟩, -, hbody⟩, -⟩
      exact ⟨h, hsig.mp hs, hbody⟩
    · rintro ⟨h, hs, hbody⟩
      exact ⟨h, ⟨⟨⟨body, h⟩, hsig.mpr hs⟩, trivial, hbody⟩, trivial, trivial⟩
  | _ => simp [Expr.events, Event.Has, EveryPart, exprsEvents_eq, exprEvents?_eq, eltsEvents_eq,
      typeEvents?_eq, helt]

/-- The property holds everywhere in the parts of a statement. -/
def Stmt.EveryPart : Stmt → Prop
  | .decl d => ∀ spec ∈ d.specs, spec.Every Q
  | .labeled _ s _ => s.Every Q
  | .expr x | .incDec x _ _ | .go x _ | .defer x _ => x.Every Q
  | .send chan value _ => chan.Every Q ∧ value.Every Q
  | .assign lhs _ rhs _ => (∀ x ∈ lhs, x.Every Q) ∧ ∀ x ∈ rhs, x.Every Q
  | .returns results _ => ∀ x ∈ results, x.Every Q
  | .branch .. | .empty _ => True
  | .block b => b.Every Q
  | .ifElse init cond body els _ =>
    (∀ s ∈ init, s.Every Q) ∧ cond.Every Q ∧ body.Every Q ∧ ∀ s ∈ els, s.Every Q
  | .switch init tag clauses _ =>
    (∀ s ∈ init, s.Every Q) ∧ (∀ x ∈ tag, x.Every Q) ∧ ∀ c ∈ clauses, c.Every Q
  | .typeSwitch init _ subject clauses _ =>
    (∀ s ∈ init, s.Every Q) ∧ subject.Every Q ∧ ∀ c ∈ clauses, c.Every Q
  | .select clauses _ => ∀ c ∈ clauses, c.Every Q
  | .loop init cond post body _ => (∀ s ∈ init, s.Every Q) ∧ (∀ x ∈ cond, x.Every Q) ∧
    (∀ s ∈ post, s.Every Q) ∧ body.Every Q
  | .range key value _ x body _ => (∀ y ∈ key, y.Every Q) ∧ (∀ y ∈ value, y.Every Q) ∧
    x.Every Q ∧ body.Every Q

theorem Stmt.every_iff (s : Stmt) : s.Every Q ↔ Q.stmt s ∧ s.EveryPart Q := by
  rw [Every]
  cases s <;> simp [Stmt.events, Event.Has, EveryPart, GenDecl.events_eq, exprsEvents_eq,
    exprEvents?_eq,
    stmtEvents?_eq, rangeEvents?_eq, casesEvents_eq, commsEvents_eq, CaseClause.Every,
    CommClause.Every]

/-- The property holds everywhere in a declaration. -/
def Decl.Every (d : Decl) : Prop :=
  Event.AllHave Q (d.events Q.way)

theorem Decl.every_iff (d : Decl) : d.Every Q ↔ match d with
    | .func f => (∀ field ∈ f.recv, field.ty.Every Q) ∧ (∀ field ∈ f.typeParams, field.ty.Every Q) ∧
      f.sig.Every Q ∧ ∀ b ∈ f.body, b.Every Q
    | .gen g => ∀ spec ∈ g.specs, spec.Every Q := by
  rw [Every]
  cases d with
  | func f => cases hbody : f.body <;> simp [Decl.events, hbody, fieldsEvents_eq]
  | gen g => simp [Decl.events, GenDecl.events_eq]

end ServiceSplit
