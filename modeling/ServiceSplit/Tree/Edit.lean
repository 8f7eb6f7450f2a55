import ServiceSplit.Tree.Events

/-!
# Editing trees

Changing statements and expressions throughout a tree. An editor says, for each statement,
expression and function literal, what becomes of it; it is given the part itself and the action that
edits what is inside. A statement may become any number of statements. Types are left alone.
-/

namespace ServiceSplit

/-- What becomes of statements, expressions and function literals. Each function is given the part
and the action that edits what is inside it. -/
structure Editor (m : Type → Type) where
  /-- What becomes of a statement. -/
  onStmt : Stmt → m Stmt → m (List Stmt)
  /-- What becomes of an expression with a role. -/
  onExpr : Role → Expr → m Expr → m Expr
  /-- What becomes of the body of a function literal. -/
  onLit : Signature → Block → m Block → m Block

/-- Several statements where only one can stand: nothing, the statement itself, or a block. -/
def Stmt.single : List Stmt → Option Stmt
  | [] => none
  | [s] => some s
  | ss => some (.block ⟨ss, .synthetic⟩)

/-- The result of an action in front of the results of the others. -/
def consM {m : Type → Type} [Monad m] {α : Type} (first : m α) (rest : m (List α)) :
    m (List α) := do
  let a ← first
  return a :: (← rest)

namespace Editor

variable {m : Type → Type} [Monad m]

mutual

/-- Edits an expression. -/
def expr (E : Editor m) (role : Role) (e : Expr) : m Expr :=
  E.onExpr role e <|
    match e with
    | .ident id => pure (.ident id)
    | .lit kind raw s => pure (.lit kind raw s)
    | .type ty s => pure (.type ty s)
    | .composite ty elts s => do
      let ty ← expr? E .use ty
      return .composite ty (← exprs E .use elts) s
    | .funcLit sig body s => do
      return .funcLit sig (← E.onLit sig body (block E body)) s
    | .paren x s => do
      return .paren (← expr E .use x) s
    | .selector x sel s => do
      return .selector (← expr E .use x) sel s
    | .index x indices s => do
      let x ← expr E .use x
      return .index x (← exprs E .use indices) s
    | .slice x low high max three s => do
      let x ← expr E .use x
      let low ← expr? E .use low
      let high ← expr? E .use high
      return .slice x low high (← expr? E .use max) three s
    | .typeAssert x ty s => do
      return .typeAssert (← expr E .use x) ty s
    | .call fn args spread s => do
      let fn ← expr E .use fn
      return .call fn (← exprs E .use args) spread s
    | .star x s => do
      return .star (← expr E .use x) s
    | .unary op x s => do
      return .unary op (← expr E .use x) s
    | .binary op x y s => do
      let x ← expr E .use x
      return .binary op x (← expr E .use y) s
    | .keyValue key value s => do
      let key ← expr E .use key
      return .keyValue key (← expr E .use value) s

/-- Edits several expressions. -/
def exprs (E : Editor m) (role : Role) : List Expr → m (List Expr)
  | [] => pure []
  | x :: xs => consM (expr E role x) (exprs E role xs)

/-- Edits an optional expression. -/
def expr? (E : Editor m) (role : Role) : Option Expr → m (Option Expr)
  | none => pure none
  | some x => some <$> expr E role x

/-- Edits a block. -/
def block (E : Editor m) : Block → m Block
  | ⟨ss, s⟩ => do
    return ⟨← stmts E ss, s⟩

/-- Edits several statements. -/
def stmts (E : Editor m) : List Stmt → m (List Stmt)
  | [] => pure []
  | s :: ss => do
    let first ← stmt E s
    return first ++ (← stmts E ss)

/-- Edits an optional statement. -/
def stmt? (E : Editor m) : Option Stmt → m (Option Stmt)
  | none => pure none
  | some s => Stmt.single <$> stmt E s

/-- Edits the values of declarations. -/
def specs (E : Editor m) : List Spec → m (List Spec)
  | [] => pure []
  | .value names ty values s :: ss =>
    consM (do return .value names ty (← exprs E .use values) s) (specs E ss)
  | .type name params isAlias ty s :: ss =>
    consM (pure (.type name params isAlias ty s)) (specs E ss)

/-- Edits a declaration group. -/
def genDecl (E : Editor m) : GenDecl → m GenDecl
  | ⟨kind, ss, grouped, directives, s⟩ => do
    return ⟨kind, ← specs E ss, grouped, directives, s⟩

/-- Edits the clauses of a switch. -/
def cases (E : Editor m) : List CaseClause → m (List CaseClause)
  | [] => pure []
  | .case list body s :: cs =>
    consM (do
      let list ← exprs E .use list
      return .case list (← stmts E body) s) (cases E cs)
  | .default body s :: cs => consM (do return .default (← stmts E body) s) (cases E cs)

/-- Edits the clauses of a select. -/
def comms (E : Editor m) : List CommClause → m (List CommClause)
  | [] => pure []
  | ⟨comm, body, s⟩ :: cs =>
    consM (do
      let comm ← stmt? E comm
      return ⟨comm, ← stmts E body, s⟩) (comms E cs)

/-- Edits a statement. -/
def stmt (E : Editor m) (s : Stmt) : m (List Stmt) :=
  E.onStmt s <|
    match s with
    | .decl d => do
      return .decl (← genDecl E d)
    | .labeled label s span => do
      return .labeled label ((Stmt.single (← stmt E s)).getD (.empty span)) span
    | .expr x => do
      return .expr (← expr E .statement x)
    | .send chan value span => do
      let chan ← expr E .sendTarget chan
      return .send chan (← expr E .use value) span
    | .incDec x inc span => do
      return .incDec (← expr E .use x) inc span
    | .assign lhs op rhs span => do
      let lhs ← exprs E op.targetRole lhs
      return .assign lhs op (← exprs E .use rhs) span
    | .go call span => do
      return .go (← expr E .use call) span
    | .defer call span => do
      return .defer (← expr E .use call) span
    | .returns results span => do
      return .returns (← exprs E .use results) span
    | .branch kind label span => pure (.branch kind label span)
    | .empty span => pure (.empty span)
    | .block b => do
      return .block (← block E b)
    | .ifElse init cond body els span => do
      let init ← stmt? E init
      let cond ← expr E .use cond
      let body ← block E body
      return .ifElse init cond body (← stmt? E els) span
    | .switch init tag clauses span => do
      let init ← stmt? E init
      let tag ← expr? E .use tag
      return .switch init tag (← cases E clauses) span
    | .typeSwitch init binding subject clauses span => do
      let init ← stmt? E init
      let subject ← expr E .use subject
      return .typeSwitch init binding subject (← cases E clauses) span
    | .select clauses span => do
      return .select (← comms E clauses) span
    | .loop init cond post body span => do
      let init ← stmt? E init
      let cond ← expr? E .use cond
      let post ← stmt? E post
      return .loop init cond post (← block E body) span
    | .range key value define x body span => do
      let key ← expr? E (rangeRole define) key
      let value ← expr? E (rangeRole define) value
      let x ← expr E .use x
      return .range key value define x (← block E body) span

end

end Editor

end ServiceSplit
