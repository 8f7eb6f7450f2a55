import ServiceSplit.Proofs.RoundTrip.Operations

/-!
# The parentheses of the printer

The printer puts parentheses around operands that do not bind tightly enough, and leaves out those
around parentheses. This file has the tree that the printed text of an operation stands for, and
shows that it is grouped, and that it differs from the operation in parentheses only.
-/

namespace ServiceSplit

/-- An expression in parentheses, if `b` says so. -/
def Expr.inParens (b : Bool) (e : Expr) : Expr :=
  if b then .paren e .synthetic else e

mutual

/-- An operation with the parentheses that it is printed with. -/
def Expr.parenthesized : Expr → Expr
  | .paren x span => if x.isParen then x.parenthesized else .paren x.parenthesized span
  | .selector x sel span => .selector (x.parenthesized.inParens x.parensAsOperand) sel span
  | .index x indices span =>
    .index (x.parenthesized.inParens x.parensAsOperand) (Expr.allParenthesized indices) span
  | .call fn args spread span =>
    .call (fn.parenthesized.inParens fn.parensAsOperand) (Expr.allParenthesized args) spread span
  | .star x span => .star (x.parenthesized.inParens x.isBinary) span
  | .unary op x span => .unary op (x.parenthesized.inParens x.isBinary) span
  | .binary op x y span =>
    .binary op (x.parenthesized.inParens (x.parensBesides op.precedence false))
      (y.parenthesized.inParens (y.parensBesides op.precedence true)) span
  | e => e

/-- Several operations with the parentheses that they are printed with. -/
def Expr.allParenthesized : List Expr → List Expr
  | [] => []
  | x :: xs => x.parenthesized :: Expr.allParenthesized xs

end

namespace Expr

variable {valid : String → Bool} {b : Bool} {e x : Expr}

theorem allParenthesized_eq (xs : List Expr) : allParenthesized xs = xs.map parenthesized := by
  induction xs with
  | nil => rfl
  | cons x xs ih => rw [allParenthesized, ih, List.map_cons]

theorem cores_eq (xs : List Expr) : cores xs = xs.map core := by
  induction xs with
  | nil => rfl
  | cons x xs ih => rw [cores, ih, List.map_cons]

@[simp] theorem core_inParens : (e.inParens b).core = e.core := by
  cases b <;> rfl

@[simp] theorem isOperation_inParens : (e.inParens b).isOperation valid = e.isOperation valid := by
  cases b <;> rfl

@[simp] theorem isGrouped_inParens : (e.inParens b).IsGrouped ↔ e.IsGrouped := by
  cases b
  · exact Iff.rfl
  · exact isGrouped_iff _

theorem isParen_parenthesized : (e : Expr) → e.isParen = true → e.parenthesized.isParen = true
  | paren x span, _ => by
    rw [parenthesized]
    split
    · exact isParen_parenthesized x ‹_›
    · rfl

/-- Parentheses inside of an expression do not change what stands at its root. -/
theorem root_parenthesized (e : Expr) : e.parenthesized.precedence? = e.precedence? ∧
    e.parenthesized.isOperator = e.isOperator ∧ e.parenthesized.isBinary = e.isBinary := by
  cases e with
  | paren x span =>
    have hparen := isParen_parenthesized (.paren x span) rfl
    generalize (Expr.paren x span).parenthesized = y at hparen
    cases y <;> first | exact ⟨rfl, rfl, rfl⟩ | cases hparen
  | _ => exact ⟨rfl, rfl, rfl⟩

theorem isOperation_parenthesized (h : e.isOperation valid = true) :
    e.parenthesized.isOperation valid = true := by
  have steps : OperationSteps valid fun e => e.parenthesized.isOperation valid = true :=
    { ident := fun id hid => hid
      paren := fun x span _ ih => by
        rw [parenthesized]
        split
        · exact ih
        · exact ih
      selector := fun x sel span _ ih hsel => by simp [parenthesized, isOperation, ih, hsel]
      index := fun x i is span _ ih his => by
        obtain ⟨hi, his⟩ := List.forall_mem_cons.mp his
        have hrest : areOperations valid (is.map parenthesized) = true :=
          areOperations_iff.mpr (List.forall_mem_map.mpr fun j hj => (his j hj).2)
        simp [parenthesized, allParenthesized, isOperation, ih, hi.2, allParenthesized_eq, hrest]
      call := fun fn args span _ ih hargs => by
        have hrest : areOperations valid (args.map parenthesized) = true :=
          areOperations_iff.mpr (List.forall_mem_map.mpr fun a ha => (hargs a ha).2)
        simp [parenthesized, isOperation, ih, allParenthesized_eq, hrest]
      star := fun x span _ ih => by simp [parenthesized, isOperation, ih]
      unary := fun op x span hop _ ih => by
        rcases hop with rfl | rfl <;> simp [parenthesized, isOperation, ih]
      binary := fun op x y span _ ihx _ ihy => by simp [parenthesized, isOperation, ihx, ihy] }
  exact steps.all e h

theorem core_parenthesized (h : e.isOperation valid = true) : e.parenthesized.core = e.core := by
  have hlist : ∀ {xs : List Expr}, (∀ x ∈ xs, x.isOperation valid = true ∧
      x.parenthesized.core = x.core) → cores (allParenthesized xs) = cores xs := by
    intro xs hxs
    rw [cores_eq, cores_eq, allParenthesized_eq, List.map_map]
    exact List.map_congr_left fun x hx => (hxs x hx).2
  have steps : OperationSteps valid fun e => e.parenthesized.core = e.core :=
    { ident := fun id _ => rfl
      paren := fun x span _ ih => by
        rw [parenthesized]
        split
        · exact ih
        · exact ih
      selector := fun x sel span _ ih _ => by rw [parenthesized, core, core_inParens, ih, core]
      index := fun x i is span _ ih his => by
        rw [parenthesized, core, core_inParens, ih, hlist his, core]
      call := fun fn args span _ ih hargs => by
        rw [parenthesized, core, core_inParens, ih, hlist hargs, core]
      star := fun x span _ ih => by rw [parenthesized, core, core_inParens, ih, core]
      unary := fun op x span _ _ ih => by rw [parenthesized, core, core_inParens, ih, core]
      binary := fun op x y span _ ihx _ ihy => by
        rw [parenthesized, core, core_inParens, core_inParens, ihx, ihy, core] }
  exact steps.all e h

/-- An operand in front of a selector, an index or arguments has no operator outside of
parentheses. -/
theorem isOperator_operand (x : Expr) :
    (x.parenthesized.inParens x.parensAsOperand).isOperator = false := by
  cases h : x.parensAsOperand with
  | true => rfl
  | false =>
    rw [inParens, if_neg Bool.false_ne_true, (root_parenthesized x).2.1]
    cases x <;> first | rfl | cases h

theorem isBinary_operand (x : Expr) : (x.parenthesized.inParens x.isBinary).isBinary = false := by
  cases h : x.isBinary with
  | true => rfl
  | false => rw [inParens, if_neg Bool.false_ne_true, (root_parenthesized x).2.2, h]

/-- The operand of a binary operator binds as tightly as its side asks for. -/
theorem precedence_operand {prec p : Nat} {right : Bool}
    (h : p ∈ (x.parenthesized.inParens (x.parensBesides prec right)).precedence?) :
    prec ≤ p ∧ (right = true → prec < p) := by
  cases hparens : x.parensBesides prec right with
  | true =>
    rw [hparens] at h
    cases h
  | false =>
    rw [hparens, inParens, if_neg Bool.false_ne_true, (root_parenthesized x).1] at h
    rw [parensBesides, Option.mem_def.mp h] at hparens
    simp only [Option.any_some, Bool.or_eq_false_iff, decide_eq_false_iff_not, Nat.not_lt,
      Bool.and_eq_false_iff, beq_eq_false_iff_ne] at hparens
    obtain ⟨hle, hne⟩ := hparens
    refine ⟨hle, fun hright => ?_⟩
    rcases hne with hne | hne
    · exact absurd (hright.symm.trans hne).symm Bool.false_ne_true
    · omega

/-- With the parentheses of the printer, an operation is grouped. -/
theorem isGrouped_parenthesized (h : e.isOperation valid = true) : e.parenthesized.IsGrouped := by
  have hlist : ∀ {xs : List Expr}, (∀ x ∈ xs, x.isOperation valid = true ∧
      x.parenthesized.IsGrouped) → ∀ x ∈ allParenthesized xs, x.IsGrouped := by
    intro xs hxs
    rw [allParenthesized_eq]
    exact List.forall_mem_map.mpr fun x hx => (hxs x hx).2
  have steps : OperationSteps valid fun e => e.parenthesized.IsGrouped :=
    { ident := fun id _ => (isGrouped_iff _).mpr trivial
      paren := fun x span _ ih => by
        rw [parenthesized]
        split
        · exact ih
        · exact (isGrouped_iff _).mpr ih
      selector := fun x sel span _ ih _ =>
        (isGrouped_iff _).mpr ⟨x.isOperator_operand, isGrouped_inParens.mpr ih⟩
      index := fun x i is span _ ih his =>
        (isGrouped_iff _).mpr ⟨x.isOperator_operand, isGrouped_inParens.mpr ih, hlist his⟩
      call := fun fn args span _ ih hargs =>
        (isGrouped_iff _).mpr ⟨fn.isOperator_operand, isGrouped_inParens.mpr ih, hlist hargs⟩
      star := fun x span _ ih =>
        (isGrouped_iff _).mpr ⟨x.isBinary_operand, isGrouped_inParens.mpr ih⟩
      unary := fun op x span _ _ ih =>
        (isGrouped_iff _).mpr ⟨x.isBinary_operand, isGrouped_inParens.mpr ih⟩
      binary := fun op x y span _ ihx _ ihy =>
        (isGrouped_iff _).mpr ⟨⟨fun p hp => (precedence_operand hp).1,
          fun p hp => (precedence_operand hp).2 rfl⟩, isGrouped_inParens.mpr ihx,
          isGrouped_inParens.mpr ihy⟩ }
  exact steps.all e h

mutual

theorem core_unplaced : (e : Expr) → e.unplaced.core = e.core
  | paren x _ => core_unplaced x
  | selector x _ _ => by rw [unplaced, core, core, core_unplaced x]; rfl
  | index x indices _ => by rw [unplaced, core, core, core_unplaced x, cores_allUnplaced indices]
  | call fn args _ _ => by rw [unplaced, core, core, core_unplaced fn, cores_allUnplaced args]
  | star x _ => by rw [unplaced, core, core, core_unplaced x]
  | unary _ x _ => by rw [unplaced, core, core, core_unplaced x]
  | binary _ x y _ => by rw [unplaced, core, core, core_unplaced x, core_unplaced y]
  | ident _ | lit .. | composite .. | funcLit .. | slice .. | typeAssert .. | keyValue ..
  | type .. => rfl

theorem cores_allUnplaced : (es : List Expr) → cores (allUnplaced es) = cores es
  | [] => rfl
  | e :: es => by rw [allUnplaced, cores, cores, core_unplaced e, cores_allUnplaced es]

end

end Expr

end ServiceSplit
