import ServiceSplit.Parser.Types

/-!
# Expressions

Parsers of expressions and blocks.
-/

namespace ServiceSplit

open ServiceSplit.Parser

/-- The binary operator with a given mark. -/
def BinaryOp.ofToken? : TokenKind → Option BinaryOp
  | .punct .orOr => some .lor
  | .punct .andAnd => some .land
  | .punct .eqEq => some .eq
  | .punct .bangEq => some .ne
  | .punct .lt => some .lt
  | .punct .ltEq => some .le
  | .punct .gt => some .gt
  | .punct .gtEq => some .ge
  | .punct .plus => some .add
  | .punct .minus => some .sub
  | .punct .pipe => some .or
  | .punct .caret => some .xor
  | .punct .star => some .mul
  | .punct .slash => some .quo
  | .punct .percent => some .rem
  | .punct .shl => some .shl
  | .punct .shr => some .shr
  | .punct .ampersand => some .and
  | .punct .andNot => some .andNot
  | _ => none

/-- The unary operator with a given mark. -/
def UnaryOp.ofToken? : TokenKind → Option UnaryOp
  | .punct .plus => some .plus
  | .punct .minus => some .neg
  | .punct .bang => some .not
  | .punct .caret => some .xor
  | .punct .ampersand => some .addr
  | .punct .arrow => some .recv
  | _ => none

/-- Whether a brace behind the expression may open a composite literal; `bodyBrace` tells that a
brace behind a type name opens a body. -/
def Expr.opensComposite (bodyBrace : Bool) : Expr → Bool
  | .type (.func _) _ | .type (.chan ..) _ => false
  | .type .. => true
  | .ident _ | .selector (.ident _) _ _ => !bodyBrace
  | .index (.ident _) _ _ | .index (.selector ..) _ _ => !bodyBrace
  | _ => false

namespace Grammar

variable (G : Grammar)

/-- Whether a list of statements is over at the token. -/
def endsList : TokenKind → Bool
  | .punct .rbrace | .keyword .kwCase | .keyword .kwDefault => true
  | _ => false

/-- Statements up to a closing brace or the next clause, `before` being the ones already read, the
last one first. -/
def stmtsFrom : (bound : Nat) → (before : List Stmt) → Parser (List Stmt)
  | 0, _ => fail .tooDeep
  | n + 1, before => do
    let next ← peek
    if endsList next || next == .eof then
      return before.reverse
    else if next == .punct .semi then
      advance
      stmtsFrom n before
    else
      let s ← G.stmt
      unless endsList (← peek) do
        expectTerminator
      stmtsFrom n (s :: before)

/-- Statements up to a closing brace or the next clause. -/
def stmtList : Parser (List Stmt) :=
  G.stmtsFrom G.bound []

/-- A block. -/
def block : Parser Block := do
  let start ← position
  expect Punct.lbrace
  let stmts ← withComposites G.stmtList
  expect Punct.rbrace
  return ⟨stmts, ← spanFrom start⟩

/-- A type that stands as an expression. -/
def typeOperand : Parser Expr := do
  let start ← position
  let ty ← G.typeExpr
  return .type ty (← spanFrom start)

/-- A function literal or a function type, behind its first word. -/
def funcOperand (start : Nat) : Parser Expr := do
  let sig ← G.signature
  if ← check Punct.lbrace then
    let body ← G.block
    return .funcLit sig body (← spanFrom start)
  else
    return .type (.func sig) (← spanFrom start)

/-- An operand. -/
def operand : Parser Expr := do
  let start ← position
  match ← peek with
  | .ident name =>
    advance
    return .ident ⟨name, ← prevSpan⟩
  | .literal kind raw =>
    advance
    return .lit kind raw (← prevSpan)
  | .punct .lparen =>
    advance
    let inner ← withComposites G.expr
    expect Punct.rparen
    return .paren inner (← spanFrom start)
  | .keyword .kwFunc =>
    advance
    G.funcOperand start
  | .punct .lbracket | .keyword .kwMap | .keyword .kwChan | .keyword .kwStruct
  | .keyword .kwInterface => G.typeOperand
  | _ => fail .expectedExpression

/-- One argument of a call, and whether `...` follows it. -/
def argument : Parser (Expr × Bool) := do
  let x ← G.expr
  return (x, ← accept Punct.ellipsis)

/-- The arguments of a call, behind the opening parenthesis. -/
def arguments : Parser (List (Expr × Bool)) := do
  let args ← commaList Punct.rparen G.argument G.bound
  expect Punct.rparen
  return args

/-- An optional expression, which is absent in front of the marks of `ends`. -/
def exprUnless (ends : List TokenKind) : Parser (Option Expr) := do
  if ends.contains (← peek) then return .none else return some (← G.expr)

/-- The rest of a slice expression, behind its first colon. -/
def sliceOf (x : Expr) (low : Option Expr) : Parser Expr := do
  let high ← G.exprUnless [Punct.colon, Punct.rbracket]
  let three ← accept Punct.colon
  let max ←
    if three then
      if high.isNone then fail .missingMiddleIndex else some <$> G.expr
    else
      pure .none
  expect Punct.rbracket
  return .slice x low high max three (x.span.union (← prevSpan))

/-- More indices, each behind a comma; the last comma may stand alone. -/
def moreIndices : (bound : Nat) → Parser (List Expr)
  | 0 => fail .tooDeep
  | n + 1 => do
    if ← accept Punct.comma then
      if ← check Punct.rbracket then
        return []
      else
        let i ← G.expr
        return i :: (← moreIndices n)
    else
      return []

/-- The rest of an index or slice expression, behind the opening bracket. -/
def indexOrSlice (x : Expr) : Parser Expr := do
  let low ← G.exprUnless [Punct.colon]
  if ← accept Punct.colon then
    G.sliceOf x low
  else
    match low with
    | .none => fail .expectedIndex
    | some i =>
      let more ← G.moreIndices G.bound
      expect Punct.rbracket
      return .index x (i :: more) (x.span.union (← prevSpan))

/-- An element of a composite literal, with its key if it has one. -/
def keyedElement : Parser Expr := do
  let key ← G.element
  if ← accept Punct.colon then
    let value ← G.element
    return .keyValue key value (key.span.union value.span)
  else
    return key

/-- The elements of a composite literal in braces. -/
def compositeBody : Parser (List Expr) := do
  expect Punct.lbrace
  let elts ← withComposites (commaList Punct.rbrace G.keyedElement G.bound)
  expect Punct.rbrace
  return elts

/-- A selector or a type assertion, behind the point. -/
def selection (x : Expr) : Parser Expr := do
  if ← accept Punct.lparen then
    let ty ← if ← accept Keyword.kwType then pure .none else some <$> G.type
    expect Punct.rparen
    return .typeAssert x ty (x.span.union (← prevSpan))
  else
    let sel ← expectIdent .expectedSelector
    return .selector x sel (x.span.union sel.span)

/-- The expression `x` with the next selector, index, arguments or literal body behind it. -/
def extend (x : Expr) : Parser (Option Expr) := do
  match ← peek with
  | .punct .dot =>
    advance
    return some (← G.selection x)
  | .punct .lbracket =>
    advance
    return some (← withComposites (G.indexOrSlice x))
  | .punct .lparen =>
    advance
    let args ← withComposites G.arguments
    return some (.call x (args.map Prod.fst) (args.any Prod.snd) (x.span.union (← prevSpan)))
  | .punct .lbrace =>
    if x.opensComposite (← get).bodyBrace then
      let elts ← G.compositeBody
      return some (.composite (some x) elts (x.span.union (← prevSpan)))
    else
      return .none
  | _ => return .none

/-- The expression `x` with all selectors, indices, arguments and literal bodies behind it. -/
def extended (x : Expr) : Parser Expr :=
  iterate G.extend G.bound x

/-- An operand with the unary operators in front of it. -/
def unaryExpr : Parser Expr := do
  let start ← position
  let next ← peek
  if next == .punct .arrow && (← peekAt 1) == .keyword .kwChan then
    G.extended (← G.typeOperand)
  else if next == .punct .star then
    advance
    let x ← G.unary
    return .star x (← spanFrom start)
  else
    match UnaryOp.ofToken? next with
    | some op =>
      advance
      let x ← G.unary
      return .unary op x (← spanFrom start)
    | .none => G.extended (← G.operand)

/-- The expression `x` with the next binary operator and its right operand, if the operator binds at
least as tightly as `least`. -/
def binaryStep (least : Nat) (x : Expr) : Parser (Option Expr) := do
  match BinaryOp.ofToken? (← peek) with
  | .none => return .none
  | some op =>
    if op.precedence < least then
      return .none
    else
      advance
      let y ← G.binary (op.precedence + 1)
      return some (.binary op x y (x.span.union y.span))

/-- An expression whose binary operators bind at least as tightly as `least`. -/
def binaryExpr (least : Nat) : Parser Expr := do
  iterate (G.binaryStep least) G.bound (← G.unaryExpr)

/-- An expression at the start of a larger part. -/
def exprFirst : Parser Expr :=
  G.binaryExpr 1

/-- Expressions with commas between them: the first one and the others. -/
def exprs : Parser (Expr × List Expr) := do
  let x ← G.exprFirst
  return (x, ← following Punct.comma G.expr G.bound)

/-- Expressions with commas between them. -/
def exprList : Parser (List Expr) := do
  let (x, xs) ← G.exprs
  return x :: xs

/-- A key or a value in a composite literal, which may be a literal without its type. -/
def elementExpr : Parser Expr := do
  if ← check Punct.lbrace then
    let start ← position
    let elts ← G.compositeBody
    return .composite .none elts (.range start (← prevSpan).stop)
  else
    G.exprFirst

end Grammar

end ServiceSplit
