import ServiceSplit.Tree.Query

/-!
# Blanks and parentheses in expressions

Which binary operators have blanks around them, and which operands need parentheses.

Blanks follow the depth of an expression: at depth one all operators have them, unless operators of
both the additive and the multiplicative class meet, in which case only the former have; deeper down
only operators that bind weaker than these have. An operator that would fuse with the unary operator
behind it keeps its blanks.
-/

namespace ServiceSplit

/-- The classes of operators that meet in a chain of binary operators. -/
structure OperatorMix where
  /-- Some operator is additive. -/
  additive : Bool := false
  /-- Some operator is multiplicative. -/
  multiplicative : Bool := false
  /-- The strongest operator that would fuse with the mark behind it without a blank, by
  precedence; zero if there is none. -/
  fusing : Nat := 0
deriving DecidableEq, Repr, Inhabited

/-- The operators of two chains. -/
def OperatorMix.union (a b : OperatorMix) : OperatorMix :=
  ⟨a.additive || b.additive, a.multiplicative || b.multiplicative, max a.fusing b.fusing⟩

/-- The precedence of the operator of a binary expression. -/
def Expr.precedence? : Expr → Option Nat
  | binary op _ _ _ => some op.precedence
  | _ => none

/-- The precedence up to which blanks are needed so that `op` does not fuse with the mark at the
start of its right operand; zero if none are. -/
def BinaryOp.fusesWith (op : BinaryOp) : Expr → Nat
  | .star .. => if op = .quo then 5 else 0
  | .unary u _ _ =>
    match op, u with
    | .and, .addr | .and, .xor => 5
    | .add, .plus | .sub, .neg => 4
    | _, _ => 0
  | _ => 0

/-- The operators that are printed without parentheses in a chain of binary operators. -/
def Expr.operatorMix : Expr → OperatorMix
  | binary op x y _ =>
    let prec := op.precedence
    let own : OperatorMix := ⟨prec == 4, prec == 5, op.fusesWith y⟩
    let left := if x.precedence?.any (prec ≤ ·) then x.operatorMix else {}
    let right := if y.precedence?.any (prec < ·) then y.operatorMix else {}
    (own.union left).union right
  | _ => {}

/-- The precedence below which operators have blanks around them, for an expression at a depth. -/
def Expr.cutoff (e : Expr) (depth : Nat) : Nat :=
  let mix := e.operatorMix
  if mix.fusing > 0 then mix.fusing + 1
  else if mix.additive && mix.multiplicative then if depth = 1 then 5 else 4
  else if depth = 1 then 6
  else 4

/-- The depth inside parentheses. -/
def innerDepth (depth : Nat) : Nat :=
  max (depth - 1) 1

/-- Whether the expression needs parentheses in front of a selector, an index or arguments. -/
def Expr.parensAsOperand : Expr → Bool
  | binary .. | unary .. | star .. => true
  | type (.func _) _ | type (.chan ..) _ | type (.pointer _) _ => true
  | _ => false

/-- Whether the expression is a binary one. -/
def Expr.isBinary : Expr → Bool
  | binary .. => true
  | _ => false

/-- Whether the expression is in parentheses. -/
def Expr.isParen : Expr → Bool
  | paren .. => true
  | _ => false

/-- Whether the expression needs parentheses as an operand of an operator with a precedence. -/
def Expr.parensBesides (e : Expr) (prec : Nat) (right : Bool) : Bool :=
  e.precedence?.any fun p => p < prec || (right && p == prec)

/-- Whether a unary operator that ends in `mark` would fuse with text that starts with `next`. -/
def fuses (mark : Char) (next : Option Char) : Bool :=
  next == some mark && (mark == '-' || mark == '+' || mark == '&')

/-- The last character of a unary operator. -/
def UnaryOp.lastChar : UnaryOp → Char
  | plus => '+'
  | neg | recv => '-'
  | not => '!'
  | xor => '^'
  | addr => '&'

end ServiceSplit
