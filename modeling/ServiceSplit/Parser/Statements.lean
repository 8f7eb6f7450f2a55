import ServiceSplit.Parser.Expressions

/-!
# Statements and declaration groups

Parsers of statements, and of the declaration groups that are both statements and top-level
declarations.
-/

namespace ServiceSplit

open ServiceSplit.Parser

/-- The assignment with a given mark. -/
def AssignOp.ofToken? : TokenKind → Option AssignOp
  | .punct .colonEq => some .define
  | .punct .eq => some .assign
  | .punct .plusEq => some .add
  | .punct .minusEq => some .sub
  | .punct .starEq => some .mul
  | .punct .slashEq => some .quo
  | .punct .percentEq => some .rem
  | .punct .ampersandEq => some .and
  | .punct .pipeEq => some .or
  | .punct .caretEq => some .xor
  | .punct .shlEq => some .shl
  | .punct .shrEq => some .shr
  | .punct .andNotEq => some .andNot
  | _ => none

/-- Whether the expression is an identifier without parentheses. -/
def Expr.isPlainIdent : Expr → Bool
  | ident _ => true
  | _ => false

/-- Whether the statement sends or receives, as a clause of a select has to. -/
def Stmt.isCommunication : Stmt → Bool
  | send .. => true
  | expr x => x.isReceive
  | assign _ .define [x] _ | assign _ .assign [x] _ => x.isReceive
  | _ => false

/-- The header of a `for` statement. -/
inductive ForHeader where
  | loop (init : Option Stmt) (cond : Option Expr) (post : Option Stmt)
  | range (key value : Option Expr) (define : Bool) (x : Expr)

namespace Grammar

variable (G : Grammar)

/-- One line of variables or constants. -/
def valueSpec (kind : GenKind) : Parser Spec := do
  let start ← position
  let ids ← G.names .expectedName .expectedNameAfterComma
  let next ← peek
  let ty ←
    if next == .punct .eq || next == .punct .semi || next == .punct .rparen then pure .none
    else some <$> G.type
  let values ← if ← accept Punct.eq then G.exprList else pure []
  let span ← spanFrom start
  if kind = .var ∧ ty.isNone ∧ values.isEmpty then
    failAt .bareVariable span
  else
    return .value ids ty values span

/-- One line of types. -/
def typeSpec : Parser Spec := do
  let start ← position
  let name ← expectIdent .expectedTypeName
  let generic :=
    (← check Punct.lbracket) && (← peekAt 1).isIdent && (← peekAt 2).continuesTypeParam
  let params ← if generic then G.typeParams else pure []
  let isAlias ← accept Punct.eq
  let ty ← G.type
  return .type name params isAlias ty (← spanFrom start)

/-- One line of a declaration group. -/
def spec (kind : GenKind) : Parser Spec :=
  match kind with
  | .type => G.typeSpec
  | .var | .const => G.valueSpec kind

/-- A declaration group, whose first word comes next. -/
def genDecl (kind : GenKind) : Parser GenDecl := do
  let start ← position
  advance
  let grouped ← accept Punct.lparen
  let specs ←
    if grouped then do
      let specs ← lines G.bound Punct.rparen (G.spec kind)
      expect Punct.rparen
      pure specs
    else
      pure [← G.spec kind]
  return ⟨kind, specs, grouped, [], ← spanFrom start⟩

/-- Checks an assignment. -/
def checkAssign (lhs : List Expr) (op : AssignOp) (rhs : List Expr) (span : Span) :
    Parser Stmt :=
  match op with
  | .define =>
    match lhs.find? fun x => !x.isPlainIdent with
    | some bad => failAt .definesNonName bad.span
    | .none => return .assign lhs op rhs span
  | .assign => return .assign lhs op rhs span
  | _ =>
    if lhs.length = 1 ∧ rhs.length = 1 then return .assign lhs op rhs span
    else failAt (.severalOperands op.text) span

/-- The simple statement that starts with the expressions `x` and `xs`. -/
def simpleFrom (x : Expr) (xs : List Expr) : Parser Stmt := do
  let next ← peek
  match AssignOp.ofToken? next with
  | some op =>
    advance
    let rhs ← G.exprList
    checkAssign (x :: xs) op rhs (x.span.union (← prevSpan))
  | .none =>
    if !xs.isEmpty then
      fail .expectedAssignment
    else if next == .punct .arrow then
      advance
      let value ← G.expr
      return .send x value (x.span.union value.span)
    else if next == .punct .plusPlus || next == .punct .minusMinus then
      advance
      return .incDec x (next == .punct .plusPlus) (x.span.union (← prevSpan))
    else
      return .expr x

/-- A simple statement. -/
def simpleStmt : Parser Stmt := do
  let (x, xs) ← G.exprs
  G.simpleFrom x xs

/-- A simple statement in the header of a control statement. -/
def headerStmt : Parser Stmt :=
  withoutComposites G.simpleStmt

/-- An expression in the header of a control statement. -/
def headerExpr : Parser Expr :=
  withoutComposites G.exprFirst

/-- The expression that a statement in a header has to be. -/
def condition : Stmt → Parser Expr
  | .expr x => return x
  | s => failAt .statementAsCondition s.span

/-- A `go` or `defer` statement, whose operand has to be a call. -/
def callStmt (word : Keyword) (make : Expr → Span → Stmt) : Parser Stmt := do
  let start ← position
  advance
  let call ← G.expr
  if call.isCall then return make call (← spanFrom start)
  else failAt (.notACall word) call.span

/-- A `return` statement. -/
def returnStmt : Parser Stmt := do
  let start ← position
  advance
  let next ← peek
  let results ←
    if next == .punct .semi || next == .punct .rbrace then pure [] else G.exprList
  return .returns results (← spanFrom start)

/-- The label of a jump. -/
def branchLabel (kind : BranchKind) : Parser (Option Ident) := do
  match kind, ← peek with
  | .fallthrough, _ => return .none
  | _, .ident name =>
    advance
    return some ⟨name, ← prevSpan⟩
  | .goto, _ => fail .expectedGotoLabel
  | _, _ => return .none

/-- A jump. -/
def branchStmt (kind : BranchKind) : Parser Stmt := do
  let start ← position
  advance
  let label ← branchLabel kind
  return .branch kind label (← spanFrom start)

/-- A statement of no text at the next token. -/
def emptyHere : Parser Stmt := do
  let start ← position
  return .empty (.range start start)

/-- A labelled statement. -/
def labeledStmt (name : String) : Parser Stmt := do
  let start ← position
  advance
  let label : Ident := ⟨name, ← prevSpan⟩
  advance
  skipSemis
  let s ← if ← check Punct.rbrace then emptyHere else G.stmt
  return .labeled label s (← spanFrom start)

/-- The initial statement and the condition of an `if` statement. -/
def ifHeader : Parser (Option Stmt × Expr) := do
  if ← check Punct.lbrace then
    fail .missingCondition
  else if ← accept Punct.semi then
    return (.none, ← G.headerExpr)
  else
    let first ← G.headerStmt
    if ← accept Punct.semi then
      return (some first, ← G.headerExpr)
    else
      return (.none, ← condition first)

/-- The branch behind `else`. -/
def elseBranch : Parser Stmt := do
  match ← peek with
  | .keyword .kwIf => G.stmt
  | .punct .lbrace => .block <$> G.block
  | _ => fail .expectedElseBranch

/-- An `if` statement. -/
def ifStmt : Parser Stmt := do
  let start ← position
  advance
  let (init, cond) ← G.ifHeader
  let body ← G.block
  let els ← if ← accept Keyword.kwElse then some <$> G.elseBranch else pure .none
  return .ifElse init cond body els (← spanFrom start)

/-- A type in a clause of a type switch. -/
def caseType : Parser Expr := do
  let start ← position
  let ty ← G.type
  return .type ty (← spanFrom start)

/-- A clause of a switch; `types` tells that its cases are types. -/
def caseClause (types : Bool) (before : List CaseClause) : Parser CaseClause := do
  let start ← position
  if ← accept Keyword.kwDefault then
    if before.any CaseClause.isDefault then
      failAt .severalDefaults (← prevSpan)
    else
      expect Punct.colon
      let body ← G.stmtList
      return .default body (← spanFrom start)
  else
    expect Keyword.kwCase
    let list ← separated G.bound Punct.comma (if types then G.caseType else G.expr)
    expect Punct.colon
    let body ← G.stmtList
    return .case list body (← spanFrom start)

/-- The clauses of a switch in braces. -/
def caseClauses (types : Bool) : Parser (List CaseClause) := do
  expect Punct.lbrace
  let clauses ← items Punct.rbrace (G.caseClause types) G.bound []
  expect Punct.rbrace
  return clauses

/-- The initial statement and the other statement in the header of a switch. -/
def switchHeader : Parser (Option Stmt × Option Stmt) := do
  if ← check Punct.lbrace then
    return (.none, .none)
  else
    let first ← if ← check Punct.semi then pure .none else some <$> G.headerStmt
    if ← accept Punct.semi then
      if ← check Punct.lbrace then
        return (first, .none)
      else
        return (first, some (← G.headerStmt))
    else
      return (.none, first)

/-- A switch or type switch. -/
def switchStmt : Parser Stmt := do
  let start ← position
  advance
  let (init, header) ← G.switchHeader
  match header with
  | some (.assign [.ident binding] .define [.typeAssert x .none _] _) =>
    let clauses ← G.caseClauses true
    return .typeSwitch init (some binding) x clauses (← spanFrom start)
  | some (.expr (.typeAssert x .none _)) =>
    let clauses ← G.caseClauses true
    return .typeSwitch init .none x clauses (← spanFrom start)
  | _ =>
    let tag ← header.mapM condition
    let clauses ← G.caseClauses false
    return .switch init tag clauses (← spanFrom start)

/-- The communication of a clause of a select. -/
def communication : Parser Stmt := do
  let s ← G.simpleStmt
  if s.isCommunication then return s else failAt .notACommunication s.span

/-- A clause of a select. -/
def commClause : Parser CommClause := do
  let start ← position
  let comm ←
    if ← accept Keyword.kwDefault then pure .none
    else do
      expect Keyword.kwCase
      some <$> G.communication
  expect Punct.colon
  let body ← G.stmtList
  return ⟨comm, body, ← spanFrom start⟩

/-- A select statement. -/
def selectStmt : Parser Stmt := do
  let start ← position
  advance
  expect Punct.lbrace
  let clauses ← items Punct.rbrace (fun _ => G.commClause) G.bound []
  expect Punct.rbrace
  return .select clauses (← spanFrom start)

/-- The condition and the post statement of a loop, behind the first semicolon. -/
def loopFrom (init : Option Stmt) : Parser ForHeader := do
  let cond ← G.exprUnless [Punct.semi]
  expect Punct.semi
  let post ← if ← check Punct.lbrace then pure .none else some <$> G.simpleStmt
  return .loop init cond post

/-- The header of a range over the iteration variables `x` and `xs`. -/
def rangeFrom (x : Expr) (xs : List Expr) (define : Bool) : Parser ForHeader := do
  match xs with
  | [] => return .range x .none define (← G.expr)
  | [value] => return .range x value define (← G.expr)
  | _ :: third :: _ => failAt .tooManyRangeVariables third.span

/-- A loop header whose first statement has been read. -/
def loopAfter (first : Option Stmt) : Parser ForHeader := do
  if ← accept Punct.semi then
    G.loopFrom first
  else
    return .loop .none (← first.mapM condition) .none

/-- The header of a `for` statement. -/
def forHeader : Parser ForHeader := do
  match ← peek with
  | .punct .lbrace => return .loop .none .none .none
  | .keyword .kwRange =>
    advance
    return .range .none .none false (← G.expr)
  | .punct .semi => G.loopAfter .none
  | _ =>
    let (x, xs) ← G.exprs
    let next ← peek
    if (next == .punct .colonEq || next == .punct .eq) && (← peekAt 1) == .keyword .kwRange then
      advance
      advance
      G.rangeFrom x xs (next == .punct .colonEq)
    else
      G.loopAfter (some (← G.simpleFrom x xs))

/-- A `for` statement. -/
def forStmt : Parser Stmt := do
  let start ← position
  advance
  match ← withoutComposites G.forHeader with
  | .loop init cond post =>
    let body ← G.block
    return .loop init cond post body (← spanFrom start)
  | .range key value define x =>
    let body ← G.block
    return .range key value define x body (← spanFrom start)

/-- A statement. -/
def statement : Parser Stmt := do
  match ← peek with
  | .keyword .kwVar => .decl <$> G.genDecl .var
  | .keyword .kwConst => .decl <$> G.genDecl .const
  | .keyword .kwType => .decl <$> G.genDecl .type
  | .keyword .kwGo => G.callStmt .kwGo .go
  | .keyword .kwDefer => G.callStmt .kwDefer .defer
  | .keyword .kwReturn => G.returnStmt
  | .keyword .kwBreak => branchStmt .breakTo
  | .keyword .kwContinue => branchStmt .continueTo
  | .keyword .kwGoto => branchStmt .goto
  | .keyword .kwFallthrough => branchStmt .fallthrough
  | .punct .lbrace => .block <$> G.block
  | .keyword .kwIf => G.ifStmt
  | .keyword .kwSwitch => G.switchStmt
  | .keyword .kwSelect => G.selectStmt
  | .keyword .kwFor => G.forStmt
  | .punct .semi => emptyHere
  | .ident name =>
    if (← peekAt 1) == .punct .colon then G.labeledStmt name else G.simpleStmt
  | _ => G.simpleStmt

/-- The grammar of texts with one token more. -/
def next : Grammar where
  bound := G.bound + 1
  binary := G.binaryExpr
  unary := G.unaryExpr
  type := G.typeExpr
  element := G.elementExpr
  stmt := G.statement

/-- The grammar of texts with fewer than `n` tokens. -/
def ofBound : (n : Nat) → Grammar
  | 0 => none
  | n + 1 => (ofBound n).next

end Grammar

end ServiceSplit
