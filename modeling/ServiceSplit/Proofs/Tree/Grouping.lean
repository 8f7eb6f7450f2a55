import ServiceSplit.Printer.Spacing
import ServiceSplit.Proofs.Tree.Every

/-!
# Grouped expressions

An expression without parentheses around its operands is read back as it is if the operands bind
tightly enough: the left operand of a binary operator at least as tightly as the operator, the right
one more tightly, the operand of a unary operator more tightly than every binary one, and what
stands in front of a selector, an index or arguments more tightly than every operator. A tree is
grouped if this holds of all expressions in it, those in its types and function literals included.
-/

namespace ServiceSplit

/-- Whether the expression starts or goes on with an operator outside of all parentheses. -/
def Expr.isOperator : Expr → Bool
  | binary .. | unary .. | star .. => true
  | _ => false

/-- Whether the operands of an expression bind tightly enough to stand without parentheses. -/
def Expr.tightOperands : Expr → Bool
  | binary op x y _ => x.precedence?.all (op.precedence ≤ ·) && y.precedence?.all
      (op.precedence < ·)
  | unary _ x _ | star x _ => !x.isBinary
  | selector x _ _ | index x _ _ | slice x _ _ _ _ _ | call x _ _ _ | typeAssert x _ _ =>
      !x.isOperator
  | _ => true

/-- The operands of all expressions on the way bind tightly enough. -/
def Event.AllGrouped (es : List Event) : Prop :=
  ∀ role y, expr role y ∈ es → y.tightOperands = true

/-- The operands of all expressions in an expression bind tightly enough. -/
def Expr.IsGrouped (e : Expr) : Prop :=
  Event.AllGrouped (e.events {} .use)

/-- The operands of an expression bind tightly enough. -/
def NodeProp.tight : NodeProp where
  expr x := x.tightOperands = true

theorem Event.allGrouped_iff {es : List Event} : AllGrouped es ↔ AllHave .tight es := by
  refine ⟨fun h e he => ?_, fun h role y hy => h _ hy⟩
  cases e with
  | expr role y => exact h role y he
  | openLit sig span => exact ⟨⟨[], span⟩, rfl⟩
  | _ => trivial

theorem Expr.isGrouped_iff_every (e : Expr) : e.IsGrouped ↔ e.Every .tight :=
  Event.allGrouped_iff

theorem Expr.isGrouped_iff (e : Expr) : e.IsGrouped ↔ match e with
    | .ident _ | .lit .. => True
    | .composite ty elts _ => (∀ x ∈ ty, x.IsGrouped) ∧ ∀ x ∈ elts, x.IsGrouped
    | .funcLit sig body _ => sig.Every .tight ∧ body.Every .tight
    | .paren x _ => x.IsGrouped
    | .selector x _ _ => x.isOperator = false ∧ x.IsGrouped
    | .index x indices _ => x.isOperator = false ∧ x.IsGrouped ∧ ∀ i ∈ indices, i.IsGrouped
    | .slice x low high max _ _ => x.isOperator = false ∧ x.IsGrouped ∧
      (∀ y ∈ low, y.IsGrouped) ∧ (∀ y ∈ high, y.IsGrouped) ∧ ∀ y ∈ max, y.IsGrouped
    | .typeAssert x ty _ => x.isOperator = false ∧ x.IsGrouped ∧ ∀ t ∈ ty, t.Every .tight
    | .call fn args _ _ => fn.isOperator = false ∧ fn.IsGrouped ∧ ∀ a ∈ args, a.IsGrouped
    | .star x _ | .unary _ x _ => x.isBinary = false ∧ x.IsGrouped
    | .binary op x y _ => ((∀ p ∈ x.precedence?, op.precedence ≤ p) ∧
      ∀ p ∈ y.precedence?, op.precedence < p) ∧ x.IsGrouped ∧ y.IsGrouped
    | .keyValue key value _ => key.IsGrouped ∧ value.IsGrouped
    | .type ty _ => ty.Every .tight := by
  rw [isGrouped_iff_every, every_iff _ fun _ _ _ => rfl]
  cases e <;> simp [EveryPart, NodeProp.tight, tightOperands, isGrouped_iff_every,
    Option.all_eq_true]

end ServiceSplit
