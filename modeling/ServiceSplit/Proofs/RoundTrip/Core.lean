import ServiceSplit.Tree.Query

/-!
# Trees without places and parentheses

Two types or expressions mean the same if they differ in the places of their names and in
parentheses only. This file takes both away, and says which types are written in full: they have no
`...`, and the lengths of their arrays are names or literals.
-/

namespace ServiceSplit

/-- The token of a name or a literal. -/
def Expr.leaf? : Expr → Option TokenKind
  | .ident id => some (.ident id.name)
  | .lit kind raw _ => some (.literal kind raw)
  | _ => none

mutual

/-- An expression without places and parentheses, as far as it is made of names and literals by
operators, selectors, indices and calls. -/
def Expr.core : Expr → Expr
  | .ident id => .ident (.made id.name)
  | .lit kind raw _ => .lit kind raw .synthetic
  | .paren x _ => x.core
  | .selector x sel _ => .selector x.core (.made sel.name) .synthetic
  | .index x indices _ => .index x.core (Expr.cores indices) .synthetic
  | .call fn args spread _ => .call fn.core (Expr.cores args) spread .synthetic
  | .star x _ => .star x.core .synthetic
  | .unary op x _ => .unary op x.core .synthetic
  | .binary op x y _ => .binary op x.core y.core .synthetic
  | e => e

/-- Expressions without places and parentheses. -/
def Expr.cores : List Expr → List Expr
  | [] => []
  | x :: xs => x.core :: Expr.cores xs

end

theorem Expr.leaf?_eq_some_iff {e : Expr} {k : TokenKind} : e.leaf? = some k ↔
    (∃ id, e = .ident id ∧ k = .ident id.name) ∨
      ∃ kind raw span, e = .lit kind raw span ∧ k = .literal kind raw := by
  constructor
  · intro h
    cases e with
    | ident id => exact .inl ⟨id, rfl, (Option.some.inj h).symm⟩
    | lit kind raw span => exact .inr ⟨kind, raw, span, rfl, (Option.some.inj h).symm⟩
    | _ => cases h
  · rintro (⟨id, rfl, rfl⟩ | ⟨kind, raw, span, rfl, rfl⟩) <;> rfl

/-- Names and literals with the same token differ in their places only. -/
theorem Expr.core_of_leaf? {e e' : Expr} {k : TokenKind} (h : e.leaf? = some k)
    (h' : e'.leaf? = some k) : e.core = e'.core := by
  rcases leaf?_eq_some_iff.mp h with ⟨id, rfl, rfl⟩ | ⟨kind, raw, span, rfl, rfl⟩
  · rcases leaf?_eq_some_iff.mp h' with ⟨id', rfl, heq⟩ | ⟨kind, raw, span, rfl, heq⟩
    · rw [Expr.core, Expr.core, (TokenKind.ident.inj heq)]
    · cases heq
  · rcases leaf?_eq_some_iff.mp h' with ⟨id', rfl, heq⟩ | ⟨kind, raw, span, rfl, heq⟩
    · cases heq
    · cases heq
      rfl

mutual

/-- A type without places and parentheses. -/
def TypeExpr.core : TypeExpr → TypeExpr
  | .name pkg name args => .name pkg name (TypeExpr.cores args)
  | .pointer elem => .pointer elem.core
  | .slice elem => .slice elem.core
  | .array len elem => .array (len.map Expr.core) elem.core
  | .map key value => .map key.core value.core
  | .chan dir elem => .chan dir elem.core
  | .func sig => .func sig.core
  | .struct fields => .struct (Field.cores fields)
  | .interface elems => .interface (InterfaceElem.cores elems)
  | .ellipsis elem => .ellipsis elem.core
  | .union terms => .union (UnionTerm.cores terms)
  | .paren inner => inner.core

/-- Types without places and parentheses. -/
def TypeExpr.cores : List TypeExpr → List TypeExpr
  | [] => []
  | t :: ts => t.core :: TypeExpr.cores ts

/-- Terms of a union without places and parentheses. -/
def UnionTerm.cores : List UnionTerm → List UnionTerm
  | [] => []
  | ⟨tilde, ty⟩ :: ts => ⟨tilde, ty.core⟩ :: UnionTerm.cores ts

/-- Lines of an interface without places and parentheses. -/
def InterfaceElem.cores : List InterfaceElem → List InterfaceElem
  | [] => []
  | .method name sig :: es => .method (.made name.name) sig.core :: InterfaceElem.cores es
  | .embedded ty :: es => .embedded ty.core :: InterfaceElem.cores es

/-- Fields without places and parentheses. -/
def Field.cores : List Field → List Field
  | [] => []
  | ⟨names, ty, tag, _⟩ :: fs =>
    ⟨names.map fun id => .made id.name, ty.core, tag, .synthetic⟩ :: Field.cores fs

/-- Parameters and results without places and parentheses. -/
def Signature.core : Signature → Signature
  | ⟨params, results⟩ => ⟨Field.cores params, Field.cores results⟩

end

mutual

/-- Whether a type has no `...`, and only names and literals as lengths. -/
def TypeExpr.isSimple : TypeExpr → Bool
  | .name _ _ args => TypeExpr.allSimple args
  | .pointer elem | .slice elem | .chan _ elem | .paren elem => elem.isSimple
  | .array len elem => (len.bind Expr.leaf?).isSome && elem.isSimple
  | .map key value => key.isSimple && value.isSimple
  | .func sig => sig.isSimple
  | .struct fields => Field.allSimple fields
  | .interface elems => InterfaceElem.allSimple elems
  | .ellipsis _ => false
  | .union terms => UnionTerm.allSimple terms

/-- Whether all types are simple. -/
def TypeExpr.allSimple : List TypeExpr → Bool
  | [] => true
  | t :: ts => t.isSimple && TypeExpr.allSimple ts

/-- Whether the types of all terms are simple. -/
def UnionTerm.allSimple : List UnionTerm → Bool
  | [] => true
  | ⟨_, ty⟩ :: ts => ty.isSimple && UnionTerm.allSimple ts

/-- Whether the types of all lines are simple. -/
def InterfaceElem.allSimple : List InterfaceElem → Bool
  | [] => true
  | .method _ sig :: es => sig.isSimple && InterfaceElem.allSimple es
  | .embedded ty :: es => ty.isSimple && InterfaceElem.allSimple es

/-- Whether the types of all fields are simple. -/
def Field.allSimple : List Field → Bool
  | [] => true
  | ⟨_, ty, _, _⟩ :: fs => ty.isSimple && Field.allSimple fs

/-- Whether the types of parameters and results are simple. -/
def Signature.isSimple : Signature → Bool
  | ⟨params, results⟩ => Field.allSimple params && Field.allSimple results

end

/-! ### Lists -/

/-- A field without places and parentheses. -/
def Field.core (f : Field) : Field :=
  ⟨f.names.map fun id => .made id.name, f.ty.core, f.tag, .synthetic⟩

/-- A line of an interface without places and parentheses. -/
def InterfaceElem.core : InterfaceElem → InterfaceElem
  | .method name sig => .method (.made name.name) sig.core
  | .embedded ty => .embedded ty.core

/-- Whether the types of a line are simple. -/
def InterfaceElem.isSimple : InterfaceElem → Bool
  | .method _ sig => sig.isSimple
  | .embedded ty => ty.isSimple

theorem TypeExpr.cores_eq_map (ts : List TypeExpr) : cores ts = ts.map core := by
  induction ts with
  | nil => rfl
  | cons t ts ih => rw [cores, ih, List.map_cons]

theorem UnionTerm.cores_eq_map (ts : List UnionTerm) :
    cores ts = ts.map fun t => ⟨t.tilde, t.ty.core⟩ := by
  induction ts with
  | nil => rfl
  | cons t ts ih =>
    cases t
    rw [cores, ih, List.map_cons]

theorem InterfaceElem.cores_eq_map (es : List InterfaceElem) : cores es = es.map core := by
  induction es with
  | nil => rfl
  | cons e es ih => cases e <;> rw [cores, ih, List.map_cons] <;> rfl

theorem Field.cores_eq_map (fs : List Field) : cores fs = fs.map core := by
  induction fs with
  | nil => rfl
  | cons f fs ih =>
    cases f
    rw [cores, ih, List.map_cons]
    rfl

theorem TypeExpr.allSimple_iff {ts : List TypeExpr} :
    allSimple ts = true ↔ ∀ t ∈ ts, t.isSimple = true := by
  induction ts with
  | nil => simp [allSimple]
  | cons t ts ih => simp [allSimple, ih]

theorem UnionTerm.allSimple_iff {ts : List UnionTerm} :
    allSimple ts = true ↔ ∀ t ∈ ts, t.ty.isSimple = true := by
  induction ts with
  | nil => simp [allSimple]
  | cons t ts ih =>
    cases t
    simp [allSimple, ih]

theorem InterfaceElem.allSimple_iff {es : List InterfaceElem} :
    allSimple es = true ↔ ∀ e ∈ es, e.isSimple = true := by
  induction es with
  | nil => simp [allSimple]
  | cons e es ih => cases e <;> simp [allSimple, InterfaceElem.isSimple, ih]

theorem Field.allSimple_iff {fs : List Field} :
    allSimple fs = true ↔ ∀ f ∈ fs, f.ty.isSimple = true := by
  induction fs with
  | nil => simp [allSimple]
  | cons f fs ih =>
    cases f
    simp [allSimple, ih]

end ServiceSplit
