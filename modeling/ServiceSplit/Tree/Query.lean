import ServiceSplit.Text.Basic
import ServiceSplit.Tree.Basic

/-!
# Questions about syntax trees

Spans, spellings and shapes of the parts of a syntax tree.
-/

namespace ServiceSplit

/-- A name made by the program itself. -/
def Ident.made (name : String) : Ident :=
  ⟨name, .synthetic⟩

/-- Whether the name is the blank identifier. -/
def Ident.isBlank (id : Ident) : Bool :=
  id.name == "_"

/-- The mark of a unary operator. -/
def UnaryOp.mark : UnaryOp → Punct
  | plus => .plus
  | neg => .minus
  | not => .bang
  | xor => .caret
  | addr => .ampersand
  | recv => .arrow

/-- The mark of a binary operator. -/
def BinaryOp.mark : BinaryOp → Punct
  | lor => .orOr
  | land => .andAnd
  | eq => .eqEq
  | ne => .bangEq
  | lt => .lt
  | le => .ltEq
  | gt => .gt
  | ge => .gtEq
  | add => .plus
  | sub => .minus
  | or => .pipe
  | xor => .caret
  | mul => .star
  | quo => .slash
  | rem => .percent
  | shl => .shl
  | shr => .shr
  | and => .ampersand
  | andNot => .andNot

/-- The mark of an assignment. -/
def AssignOp.mark : AssignOp → Punct
  | define => .colonEq
  | assign => .eq
  | add => .plusEq
  | sub => .minusEq
  | mul => .starEq
  | quo => .slashEq
  | rem => .percentEq
  | and => .ampersandEq
  | or => .pipeEq
  | xor => .caretEq
  | shl => .shlEq
  | shr => .shrEq
  | andNot => .andNotEq

/-- The word of a jump. -/
def BranchKind.word : BranchKind → Keyword
  | breakTo => .kwBreak
  | continueTo => .kwContinue
  | goto => .kwGoto
  | fallthrough => .kwFallthrough

/-- The word of a declaration group. -/
def GenKind.word : GenKind → Keyword
  | var => .kwVar
  | const => .kwConst
  | type => .kwType

/-- The spelling of an assignment. -/
def AssignOp.text (op : AssignOp) : String :=
  op.mark.text

/-- The spelling of a unary operator. -/
def UnaryOp.text (op : UnaryOp) : String :=
  op.mark.text

/-- The spelling of a binary operator. -/
def BinaryOp.text (op : BinaryOp) : String :=
  op.mark.text

/-- The spelling of a jump. -/
def BranchKind.text (kind : BranchKind) : String :=
  kind.word.text

/-- How tightly a binary operator binds, from 1 to 5. -/
def BinaryOp.precedence : BinaryOp → Nat
  | lor => 1
  | land => 2
  | eq | ne | lt | le | gt | ge => 3
  | add | sub | or | xor => 4
  | mul | quo | rem | shl | shr | and | andNot => 5

/-- A type name without package and arguments. -/
def TypeExpr.named (n : String) : TypeExpr :=
  name none n []

/-- The element type of a channel type, in parentheses or not. -/
def TypeExpr.chanElem : TypeExpr → Option TypeExpr
  | chan _ elem => some elem
  | paren inner => inner.chanElem
  | _ => none

/-- Whether the type is the name `n` without package and arguments. -/
def TypeExpr.isNamed (n : String) : TypeExpr → Bool
  | name none m [] => m == n
  | _ => false

/-- Whether the type is a slice of bytes. -/
def TypeExpr.isByteSlice : TypeExpr → Bool
  | slice elem => elem.isNamed "byte" || elem.isNamed "uint8"
  | _ => false

/-- Whether the type is the last parameter of a variadic function. -/
def TypeExpr.isEllipsis : TypeExpr → Bool
  | ellipsis _ => true
  | _ => false

/-- A field with one name, made by the program itself. -/
def Field.made (name : String) (ty : TypeExpr) : Field :=
  ⟨[.made name], ty, none, .synthetic⟩

/-- A field without a name, made by the program itself. -/
def Field.unnamed (ty : TypeExpr) : Field :=
  ⟨[], ty, none, .synthetic⟩

/-- The fields of a signature, parameters first. -/
def Signature.fields (sig : Signature) : List Field :=
  sig.params ++ sig.results

/-- The names of some fields. -/
def Field.allNames (fields : List Field) : List String :=
  fields.flatMap fun f => f.names.map Ident.name

/-- The place of an expression. -/
def Expr.span : Expr → Span
  | ident id => id.span
  | lit _ _ s | composite _ _ s | funcLit _ _ s | paren _ s | selector _ _ s | index _ _ s
  | slice _ _ _ _ _ s | typeAssert _ _ s | call _ _ _ s | star _ s | unary _ _ s
  | binary _ _ _ s | keyValue _ _ s | type _ s => s

/-- The identifier that an expression is, in parentheses or not. -/
def Expr.asIdent : Expr → Option Ident
  | ident id => some id
  | paren x _ => x.asIdent
  | _ => none

/-- The name of the identifier that an expression is. -/
def Expr.asName (e : Expr) : Option String :=
  e.asIdent.map Ident.name

/-- The two names of an expression `pkg.Name`. -/
def Expr.asQualified : Expr → Option (String × String)
  | selector (ident pkg) sel _ => some (pkg.name, sel.name)
  | _ => none

/-- Whether the expression is a call, in parentheses or not. -/
def Expr.isCall : Expr → Bool
  | call .. => true
  | paren x _ => x.isCall
  | _ => false

/-- Functions of packages that never return. -/
def neverReturning : List (String × String) :=
  [("os", "Exit"), ("runtime", "Goexit"), ("log", "Fatal"), ("log", "Fatalf"), ("log", "Fatalln"),
   ("log", "Panic"), ("log", "Panicf"), ("log", "Panicln")]

/-- Whether the expression is a call that never returns. -/
def Expr.isTerminatingCall : Expr → Bool
  | call fn _ _ _ =>
    match fn.asName with
    | some name => name == "panic"
    | none => fn.asQualified.any neverReturning.contains
  | _ => false

/-- Whether the expression is a receive operation, in parentheses or not. -/
def Expr.isReceive : Expr → Bool
  | unary .recv _ _ => true
  | paren x _ => x.isReceive
  | _ => false

/-- The place of a statement. -/
def Stmt.span : Stmt → Span
  | decl d => d.span
  | expr x => x.span
  | block b => b.span
  | labeled _ _ s | send _ _ s | incDec _ _ s | assign _ _ _ s | go _ s | defer _ s | returns _ s
  | branch _ _ s | ifElse _ _ _ _ s | switch _ _ _ s | typeSwitch _ _ _ _ s | select _ s
  | loop _ _ _ _ s | range _ _ _ _ _ s | empty s => s

/-- The statements of a clause. -/
def CaseClause.body : CaseClause → List Stmt
  | case _ body _ | default body _ => body

/-- Whether the clause is the default clause. -/
def CaseClause.isDefault : CaseClause → Bool
  | case .. => false
  | default .. => true

/-- Whether a function declaration is a method. -/
def FuncDecl.isMethod (f : FuncDecl) : Bool :=
  f.recv.isSome

/-- The function and method declarations of a file. -/
def File.functions (file : File) : List FuncDecl :=
  file.decls.filterMap fun
    | .func f => some f
    | .gen _ => none

/-- An import without alias, made by the program itself. -/
def ImportSpec.made (path : String) : ImportSpec :=
  ⟨none, path, [], .synthetic⟩

/-- Whether a path segment is a major version such as `v2`. -/
def isMajorVersion : List Char → Bool
  | 'v' :: rest => !rest.isEmpty && rest.all Char.isDigit
  | _ => false

/-- `cs` without the leading texts `go-`. -/
def dropGoMarks : List Char → List Char
  | 'g' :: 'o' :: '-' :: cs => dropGoMarks cs
  | cs => cs

/-- The last segment of an import path that is not a major version. -/
def lastSegment (path : List Char) : List Char :=
  match (Text.splitOn '/' path).reverse with
  | last :: before :: _ => if isMajorVersion last then before else last
  | [last] => last
  | [] => path

/-- The name an imported package has in the file: its alias, or the last segment of the path that is
not a major version, up to the first point, without a leading `go-`, and with low lines for
hyphens. -/
def ImportSpec.localName (spec : ImportSpec) : String :=
  match spec.alias? with
  | some a => a
  | none =>
    let segment := (lastSegment spec.path.toList).takeWhile (· != '.')
    String.ofList ((dropGoMarks segment).map fun c => if c = '-' then '_' else c)

end ServiceSplit
