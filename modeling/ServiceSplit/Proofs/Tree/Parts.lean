import Mathlib.Logic.Relation
import ServiceSplit.Proofs.Tree.Traversal

/-!
# Parts of a tree outside its types

Statements and expressions stand in one another at any depth: in blocks and clauses, under labels,
in operands and arguments, and in the bodies of function literals. What stands in a type, as the
length of an array does, is no part in this sense.
-/

namespace ServiceSplit

/-- A statement, or an expression with its role. -/
inductive Part where
  | stmt (s : Stmt)
  | expr (role : Role) (x : Expr)

/-! ### Direct parts -/

/-- The parts of an element of a composite literal; a key and its value are parts of the literal. -/
def Expr.eltParts (keyed : Bool) : Expr → List Part
  | .keyValue key value _ => [.expr (.key keyed) key, .expr .use value]
  | x => [.expr .use x]

/-- The expressions and statements that stand directly in an expression. -/
def Expr.parts : Expr → List Part
  | .ident _ | .lit .. | .type .. => []
  | .composite ty elts _ =>
    ty.toList.map (.expr .use) ++ elts.flatMap (Expr.eltParts (keysAreValues ty))
  | .funcLit _ body _ => body.stmts.map .stmt
  | .paren x _ | .selector x _ _ | .star x _ | .unary _ x _ | .typeAssert x _ _ => [.expr .use x]
  | .index x indices _ => .expr .use x :: indices.map (.expr .use)
  | .slice x low high max _ _ =>
    .expr .use x :: (low.toList ++ high.toList ++ max.toList).map (.expr .use)
  | .call fn args _ _ => .expr .use fn :: args.map (.expr .use)
  | .binary _ x y _ => [.expr .use x, .expr .use y]
  | .keyValue key value _ => [.expr .use key, .expr .use value]

/-- The values of a line of a declaration group. -/
def Spec.parts : Spec → List Part
  | .value _ _ values _ => values.map (.expr .use)
  | .type .. => []

/-- The cases and statements of a clause. -/
def CaseClause.parts (c : CaseClause) : List Part :=
  c.exprs.map (.expr .use) ++ c.body.map .stmt

/-- The communication and the statements of a clause. -/
def CommClause.parts (c : CommClause) : List Part :=
  (c.comm.toList ++ c.body).map .stmt

/-- The expressions and statements that stand directly in a statement. -/
def Stmt.parts : Stmt → List Part
  | .decl d => d.specs.flatMap Spec.parts
  | .labeled _ s _ => [.stmt s]
  | .expr x => [.expr .statement x]
  | .send chan value _ => [.expr .sendTarget chan, .expr .use value]
  | .incDec x _ _ => [.expr .use x]
  | .assign lhs op rhs _ => lhs.map (.expr op.targetRole) ++ rhs.map (.expr .use)
  | .go call _ | .defer call _ => [.expr .use call]
  | .returns results _ => results.map (.expr .use)
  | .branch .. | .empty _ => []
  | .block b => b.stmts.map .stmt
  | .ifElse init cond body els _ =>
    .expr .use cond :: (init.toList ++ body.stmts ++ els.toList).map .stmt
  | .switch init tag clauses _ =>
    init.toList.map .stmt ++ tag.toList.map (.expr .use) ++ clauses.flatMap CaseClause.parts
  | .typeSwitch init _ subject clauses _ =>
    .expr .use subject :: init.toList.map .stmt ++ clauses.flatMap CaseClause.parts
  | .select clauses _ => clauses.flatMap CommClause.parts
  | .loop init cond post body _ =>
    cond.toList.map (.expr .use) ++ (init.toList ++ post.toList ++ body.stmts).map .stmt
  | .range key value define x body _ =>
    .expr .use x :: (key.toList ++ value.toList).map (.expr (rangeRole define)) ++
      body.stmts.map .stmt

/-! ### Roles of parts -/

theorem AssignOp.targetRole_cases (op : AssignOp) :
    op.targetRole = .use ∨ op.targetRole = .defined := by
  cases op <;> simp [AssignOp.targetRole]

theorem rangeRole_cases (define : Bool) :
    rangeRole define = .use ∨ rangeRole define = .defined := by
  cases define <;> simp [rangeRole]

/-- An expression stands in another one for its value or as a key. -/
theorem Expr.role_of_mem_parts {role : Role} {x y : Expr} (h : .expr role y ∈ x.parts) :
    role = .use ∨ ∃ value, role = .key value := by
  cases x
  case ident => cases h
  case lit => cases h
  case type => cases h
  case composite ty elts span =>
    rcases List.mem_append.mp h with h | h
    · obtain ⟨_, _, h⟩ := List.mem_map.mp h
      cases h
      exact .inl rfl
    · obtain ⟨elt, _, h⟩ := List.mem_flatMap.mp h
      unfold Expr.eltParts at h
      split at h
      · rcases List.mem_cons.mp h with h | h
        · cases h
          exact .inr ⟨_, rfl⟩
        · cases List.mem_singleton.mp h
          exact .inl rfl
      · cases List.mem_singleton.mp h
        exact .inl rfl
  all_goals
    simp only [Expr.parts, List.mem_cons, List.mem_map, List.mem_append] at h
    grind

/-- The channel of a send and the expression of a statement have roles of their own. -/
theorem Stmt.role_of_mem_parts {role : Role} {s : Stmt} {x : Expr} (h : .expr role x ∈ s.parts) :
    (role = .sendTarget ∧ ∃ value span, s = .send x value span) ∨
      (role = .statement ∧ s = .expr x) ∨ role = .use ∨ role = .defined := by
  cases s
  case branch => cases h
  case empty => cases h
  case decl d =>
    obtain ⟨spec, _, h⟩ := List.mem_flatMap.mp h
    cases spec with
    | value names ty values span =>
      obtain ⟨_, _, h⟩ := List.mem_map.mp h
      cases h
      exact .inr (.inr (.inl rfl))
    | type => cases h
  case send chan value span =>
    rcases List.mem_cons.mp h with h | h
    · cases h
      exact .inl ⟨rfl, value, span, rfl⟩
    · cases List.mem_singleton.mp h
      exact .inr (.inr (.inl rfl))
  all_goals
    simp only [Stmt.parts, List.mem_cons, List.mem_map, List.mem_append, List.mem_flatMap] at h
    grind [AssignOp.targetRole_cases, rangeRole_cases, CaseClause.parts, CommClause.parts]

namespace Part

/-- The statements and expressions that stand directly in one. -/
def parts : Part → List Part
  | stmt s => s.parts
  | expr _ x => x.parts

/-- The first one is the second one, or the second one stands in it at some depth. -/
def Contains : Part → Part → Prop :=
  Relation.ReflTransGen fun a b => b ∈ a.parts

/-- The events of a statement or expression. -/
def events (T : Traversal) : Part → List Event
  | stmt s => s.events T
  | expr role x => x.events T role

/-- Whether a statement or expression is passed over. -/
def isSkipped (T : Traversal) : Part → Bool
  | stmt _ => false
  | expr role x => T.skip role x

end Part

/-! ### Events of parts -/

section Events

variable {T : Traversal} {p : Part}

theorem Spec.events_subset {s : Spec} (hp : p ∈ s.parts) : p.events T ⊆ s.events T := by
  cases s with
  | value names ty values span =>
    obtain ⟨x, hx, rfl⟩ := List.mem_map.mp hp
    rw [Spec.events, exprsEvents_eq]
    exact fun e he => List.mem_append_right _ (List.mem_flatMap.mpr ⟨x, hx, he⟩)
  | type => cases hp

theorem Expr.eltEvents_subset {keyed : Bool} {x : Expr} (hp : p ∈ x.eltParts keyed) :
    p.events T ⊆ x.eltEvents T keyed := by
  cases x with
  | keyValue key value span =>
    rcases List.mem_cons.mp hp with rfl | hp
    · exact List.subset_append_left _ _
    · rw [List.mem_singleton.mp hp]
      exact List.subset_append_right _ _
  | _ =>
    rw [List.mem_singleton.mp hp]
    exact fun _ he => he

/-- The events of a part of a statement are events of the statement. -/
theorem Stmt.events_subset {s : Stmt} (hp : p ∈ s.parts) : p.events T ⊆ s.events T := by
  intro e he
  cases s
  case decl d =>
    obtain ⟨spec, hspec, hp⟩ := List.mem_flatMap.mp hp
    have hmem := List.mem_flatMap.mpr ⟨spec, hspec, Spec.events_subset hp he⟩
    rw [← GenDecl.events_eq] at hmem
    exact List.mem_cons_of_mem _ (List.mem_append_left _ hmem)
  case branch => cases hp
  case empty => cases hp
  all_goals
    simp only [Stmt.parts, List.mem_cons, List.mem_append, List.mem_map, List.mem_flatMap] at hp
    simp only [Stmt.events, exprsEvents_eq, exprEvents?_eq, rangeEvents?_eq, stmtEvents?_eq,
      Block.events_eq, casesEvents_eq, commsEvents_eq, List.mem_cons, List.mem_append,
      List.mem_flatMap]
    grind [Part.events, CaseClause.parts, CommClause.parts]

/-- The events of a part of an expression are events of the expression, unless it is passed over. -/
theorem Expr.events_subset {role : Role} {x : Expr} (hp : p ∈ x.parts)
    (hskip : T.skip role x = false) : p.events T ⊆ x.events T role := by
  intro e he
  cases x
  case composite ty elts span =>
    rw [Expr.events, hskip, if_neg Bool.false_ne_true, exprEvents?_eq, eltsEvents_eq]
    refine List.mem_cons_of_mem _ ?_
    rcases List.mem_append.mp hp with hp | hp
    · obtain ⟨y, hy, rfl⟩ := List.mem_map.mp hp
      exact List.mem_append_left _ (List.mem_flatMap.mpr ⟨y, hy, he⟩)
    · obtain ⟨y, hy, hp⟩ := List.mem_flatMap.mp hp
      exact List.mem_append_right _ (List.mem_flatMap.mpr ⟨y, hy, Expr.eltEvents_subset hp he⟩)
  case ident => cases hp
  case lit => cases hp
  case type => cases hp
  all_goals
    simp only [Expr.parts, List.mem_cons, List.mem_append, List.mem_map] at hp
    simp only [Expr.events, hskip, Bool.false_eq_true, if_false, exprsEvents_eq, exprEvents?_eq,
      Block.events_eq, List.mem_cons, List.mem_append, List.mem_flatMap]
    grind [Part.events]

/-- The events of a part are events of the whole, unless it is passed over. -/
theorem Part.events_subset_of_mem_parts {n : Part} (hp : p ∈ n.parts)
    (hskip : n.isSkipped T = false) : p.events T ⊆ n.events T := by
  cases n with
  | stmt s => exact Stmt.events_subset hp
  | expr role x => exact Expr.events_subset hp hskip

/-- Whatever stands in a statement or expression has its events there, if nothing is passed over. -/
theorem Part.Contains.events_subset {n m : Part} (h : n.Contains m)
    (hskip : ∀ k : Part, k.isSkipped T = false) : m.events T ⊆ n.events T := by
  induction h with
  | refl => exact List.Subset.refl _
  | tail _ hpart ih => exact List.Subset.trans (events_subset_of_mem_parts hpart (hskip _)) ih

end Events

end ServiceSplit
