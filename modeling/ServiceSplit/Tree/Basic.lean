import ServiceSplit.Token.Basic

/-!
# Syntax trees

The tree of a source file: its package clause, imports and declarations, with the types, expressions
and statements inside them. Every part but a type knows the span it was read from.
-/

namespace ServiceSplit

/-- A name at a place. -/
structure Ident where
  /-- The name. -/
  name : String
  /-- The place. -/
  span : Span
deriving DecidableEq, Repr, Inhabited

/-- An import. -/
structure ImportSpec where
  /-- The name given to the package in this file, if one is given. -/
  alias? : Option String
  /-- The path, without quotes. -/
  path : String
  /-- The comment lines directly above `import "C"`, which are compiled with the file. -/
  preamble : List String
  /-- The place. -/
  span : Span
deriving DecidableEq, Repr, Inhabited

/-- The direction of a channel type. -/
inductive ChanDir where
  | both | send | recv
deriving DecidableEq, Repr, Inhabited

/-- What a declaration group declares. -/
inductive GenKind where
  | var | const | type
deriving DecidableEq, Repr, Inhabited

/-- The statements that jump. -/
inductive BranchKind where
  | breakTo | continueTo | goto | fallthrough
deriving DecidableEq, Repr, Inhabited

/-- Assignments: definition, plain assignment, and assignment through an operator. -/
inductive AssignOp where
  | define | assign
  | add | sub | mul | quo | rem | and | or | xor | shl | shr | andNot
deriving DecidableEq, Repr, Inhabited

/-- Unary operators other than the dereference. -/
inductive UnaryOp where
  | plus | neg | not | xor | addr | recv
deriving DecidableEq, Repr, Inhabited

/-- Binary operators. -/
inductive BinaryOp where
  | lor | land
  | eq | ne | lt | le | gt | ge
  | add | sub | or | xor
  | mul | quo | rem | shl | shr | and | andNot
deriving DecidableEq, Repr, Inhabited

mutual

/-- Types. -/
inductive TypeExpr where
  /-- A type name, with a package and type arguments if there are any. -/
  | name (pkg : Option String) (name : String) (args : List TypeExpr)
  | pointer (elem : TypeExpr)
  | slice (elem : TypeExpr)
  /-- An array; the length is left open in `[...]T`. -/
  | array (len : Option Expr) (elem : TypeExpr)
  | map (key value : TypeExpr)
  | chan (dir : ChanDir) (elem : TypeExpr)
  | func (sig : Signature)
  | struct (fields : List Field)
  | interface (elems : List InterfaceElem)
  /-- The type of the last parameter of a variadic function. -/
  | ellipsis (elem : TypeExpr)
  /-- A union of types in a constraint. -/
  | union (terms : List UnionTerm)
  | paren (inner : TypeExpr)

/-- One term of a union, with or without a tilde. -/
structure UnionTerm where
  /-- Whether the term stands for all types with this underlying type. -/
  tilde : Bool
  /-- The type. -/
  ty : TypeExpr

/-- A method or an embedded type of an interface. -/
inductive InterfaceElem where
  | method (name : Ident) (sig : Signature)
  | embedded (ty : TypeExpr)

/-- A group of parameters, results, type parameters or struct fields of one type, or a receiver. The
names are empty for unnamed parameters and embedded fields. -/
structure Field where
  /-- The names. -/
  names : List Ident
  /-- Their type. -/
  ty : TypeExpr
  /-- The tag of a struct field, as written. -/
  tag : Option String
  /-- The place. -/
  span : Span

/-- The parameters and results of a function. -/
structure Signature where
  /-- The parameters. -/
  params : List Field
  /-- The results. -/
  results : List Field

/-- Expressions. A type that stands as an expression, as in a conversion, is one too. -/
inductive Expr where
  | ident (id : Ident)
  /-- A literal with its text. -/
  | lit (kind : LitKind) (raw : String) (span : Span)
  /-- A composite literal; the type is left out inside another one. -/
  | composite (ty : Option Expr) (elts : List Expr) (span : Span)
  | funcLit (sig : Signature) (body : Block) (span : Span)
  | paren (x : Expr) (span : Span)
  | selector (x : Expr) (sel : Ident) (span : Span)
  /-- An index expression, or the instance of a generic function or type. -/
  | index (x : Expr) (indices : List Expr) (span : Span)
  /-- A slice expression; `three` marks the form with two colons. -/
  | slice (x : Expr) (low high max : Option Expr) (three : Bool) (span : Span)
  /-- A type assertion; the type is left out in the guard `x.(type)` of a type switch. -/
  | typeAssert (x : Expr) (ty : Option TypeExpr) (span : Span)
  /-- A call; `spread` marks arguments that end in `...`. -/
  | call (fn : Expr) (args : List Expr) (spread : Bool) (span : Span)
  | star (x : Expr) (span : Span)
  | unary (op : UnaryOp) (x : Expr) (span : Span)
  | binary (op : BinaryOp) (x y : Expr) (span : Span)
  /-- A key and its value in a composite literal. -/
  | keyValue (key value : Expr) (span : Span)
  | type (ty : TypeExpr) (span : Span)

/-- A block of statements in braces. -/
structure Block where
  /-- The statements. -/
  stmts : List Stmt
  /-- The place. -/
  span : Span

/-- One line of a declaration group. -/
inductive Spec where
  /-- Variables or constants. -/
  | value (names : List Ident) (ty : Option TypeExpr) (values : List Expr) (span : Span)
  /-- A type, possibly generic or an alias. -/
  | type (name : Ident) (typeParams : List Field) (isAlias : Bool) (ty : TypeExpr) (span : Span)

/-- A declaration group of variables, constants or types. -/
structure GenDecl where
  /-- What is declared. -/
  kind : GenKind
  /-- The lines. -/
  specs : List Spec
  /-- Whether the group is in parentheses. -/
  grouped : Bool
  /-- Toolchain directives above the group. -/
  directives : List String
  /-- The place. -/
  span : Span

/-- A clause of a switch. -/
inductive CaseClause where
  | case (list : List Expr) (body : List Stmt) (span : Span)
  | default (body : List Stmt) (span : Span)

/-- A clause of a select; the default clause has no communication. -/
structure CommClause where
  /-- The send or receive. -/
  comm : Option Stmt
  /-- The statements. -/
  body : List Stmt
  /-- The place. -/
  span : Span

/-- Statements. -/
inductive Stmt where
  | decl (decl : GenDecl)
  | labeled (label : Ident) (stmt : Stmt) (span : Span)
  | expr (x : Expr)
  | send (chan value : Expr) (span : Span)
  /-- `x++` or `x--`. -/
  | incDec (x : Expr) (inc : Bool) (span : Span)
  | assign (lhs : List Expr) (op : AssignOp) (rhs : List Expr) (span : Span)
  | go (call : Expr) (span : Span)
  | defer (call : Expr) (span : Span)
  | returns (results : List Expr) (span : Span)
  | branch (kind : BranchKind) (label : Option Ident) (span : Span)
  | block (block : Block)
  /-- The other branch is a block or another `if`. -/
  | ifElse (init : Option Stmt) (cond : Expr) (body : Block) (els : Option Stmt) (span : Span)
  | switch (init : Option Stmt) (tag : Option Expr) (clauses : List CaseClause) (span : Span)
  | typeSwitch (init : Option Stmt) (binding : Option Ident) (subject : Expr)
      (clauses : List CaseClause) (span : Span)
  | select (clauses : List CommClause) (span : Span)
  | loop (init : Option Stmt) (cond : Option Expr) (post : Option Stmt) (body : Block)
      (span : Span)
  | range (key value : Option Expr) (define : Bool) (x : Expr) (body : Block) (span : Span)
  | empty (span : Span)

end

instance : Inhabited TypeExpr := ⟨.name none "" []⟩

instance : Inhabited Expr := ⟨.ident default⟩

instance : Inhabited Stmt := ⟨.empty default⟩

instance : Inhabited Signature := ⟨⟨[], []⟩⟩

instance : Inhabited Block := ⟨⟨[], default⟩⟩

/-- A function or method declaration. -/
structure FuncDecl where
  /-- The receiver of a method. -/
  recv : Option Field
  /-- The name. -/
  name : Ident
  /-- The type parameters. -/
  typeParams : List Field
  /-- The parameters and results. -/
  sig : Signature
  /-- The body, unless it is defined elsewhere. -/
  body : Option Block
  /-- Toolchain directives above the declaration. -/
  directives : List String
  /-- The place. -/
  span : Span

instance : Inhabited FuncDecl := ⟨⟨none, default, [], default, none, [], default⟩⟩

/-- A top-level declaration. -/
inductive Decl where
  | func (f : FuncDecl)
  | gen (g : GenDecl)

/-- A source file. -/
structure File where
  /-- Build constraint lines above the package clause. -/
  buildConstraints : List String
  /-- The package name. -/
  package : Ident
  /-- The imports. -/
  imports : List ImportSpec
  /-- The declarations. -/
  decls : List Decl

end ServiceSplit
