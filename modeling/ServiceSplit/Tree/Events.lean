import ServiceSplit.Tree.Query

/-!
# Events of a tree

A tree as a list of events in the order of its text: statements are entered and left, expressions
and types are reached before their parts, and function literals are opened and closed. Analyses that
only read a tree are folds over this list.
-/

namespace ServiceSplit

/-- How an expression is used by what it stands in. -/
inductive Role where
  /-- For its value. -/
  | use
  /-- As a name that is defined by `:=`. -/
  | defined
  /-- As the channel of a send statement. -/
  | sendTarget
  /-- As a statement. -/
  | statement
  /-- As a key in a composite literal; `value` tells that keys are values and not field names. -/
  | key (value : Bool)
deriving DecidableEq, Repr, Inhabited

/-- What happens on the way through a tree. -/
inductive Event where
  | enter (s : Stmt)
  | leave (s : Stmt)
  | expr (role : Role) (e : Expr)
  | type (t : TypeExpr)
  /-- A function literal starts. -/
  | openLit (sig : Signature) (span : Span)
  /-- The body of a function literal starts. -/
  | bodyLit (sig : Signature)
  /-- A function literal is over. -/
  | closeLit

/-- Which parts of a tree are passed over. -/
structure Traversal where
  /-- Expressions that are passed over with all their parts. -/
  skip : Role → Expr → Bool := fun _ _ => false
  /-- Whether the signatures of function literals are visited. -/
  signatures : Bool := true

/-- Whether the keys of a composite literal of this type are values. -/
def keysAreValues : Option Expr → Bool
  | some (.type (.map ..) _) | some (.type (.slice _) _) | some (.type (.array ..) _) => true
  | _ => false

/-- The role of the left side of an assignment. -/
def AssignOp.targetRole : AssignOp → Role
  | define => .defined
  | _ => .use

/-- The role of the iteration variables of a range. -/
def rangeRole (define : Bool) : Role :=
  if define then .defined else .use

mutual

/-- The events of a type. -/
def TypeExpr.events (T : Traversal) (t : TypeExpr) : List Event :=
  .type t ::
    match t with
    | .name _ _ args => typesEvents T args
    | .pointer e | .slice e | .chan _ e | .ellipsis e | .paren e => e.events T
    | .array len e => exprEvents? T len ++ e.events T
    | .map k v => k.events T ++ v.events T
    | .func sig => sig.events T
    | .struct fields => fieldsEvents T fields
    | .interface elems => elemsEvents T elems
    | .union terms => termsEvents T terms

/-- The events of several types. -/
def typesEvents (T : Traversal) : List TypeExpr → List Event
  | [] => []
  | t :: ts => t.events T ++ typesEvents T ts

/-- The events of an optional type. -/
def typeEvents? (T : Traversal) : Option TypeExpr → List Event
  | none => []
  | some t => t.events T

/-- The events of several fields. -/
def fieldsEvents (T : Traversal) : List Field → List Event
  | [] => []
  | ⟨_, ty, _, _⟩ :: fs => ty.events T ++ fieldsEvents T fs

/-- The events of parameters and results. -/
def Signature.events (T : Traversal) : Signature → List Event
  | ⟨params, results⟩ => fieldsEvents T params ++ fieldsEvents T results

/-- The events of the lines of an interface type. -/
def elemsEvents (T : Traversal) : List InterfaceElem → List Event
  | [] => []
  | .method _ sig :: es => sig.events T ++ elemsEvents T es
  | .embedded t :: es => t.events T ++ elemsEvents T es

/-- The events of the terms of a union. -/
def termsEvents (T : Traversal) : List UnionTerm → List Event
  | [] => []
  | ⟨_, ty⟩ :: ts => ty.events T ++ termsEvents T ts

/-- The events of an expression. -/
def Expr.events (T : Traversal) (role : Role) (e : Expr) : List Event :=
  if T.skip role e then []
  else
    .expr role e ::
      match e with
      | .ident _ | .lit .. => []
      | .composite ty elts _ => exprEvents? T ty ++ eltsEvents T (keysAreValues ty) elts
      | .funcLit sig body span =>
        .openLit sig span :: (if T.signatures then sig.events T else []) ++
          .bodyLit sig :: body.events T ++ [.closeLit]
      | .paren x _ | .selector x _ _ | .star x _ | .unary _ x _ => x.events T .use
      | .index x indices _ => x.events T .use ++ exprsEvents T .use indices
      | .slice x low high max _ _ =>
        x.events T .use ++ exprEvents? T low ++ exprEvents? T high ++ exprEvents? T max
      | .typeAssert x ty _ => x.events T .use ++ typeEvents? T ty
      | .call fn args _ _ => fn.events T .use ++ exprsEvents T .use args
      | .binary _ x y _ => x.events T .use ++ y.events T .use
      | .keyValue key value _ => key.events T .use ++ value.events T .use
      | .type ty _ => ty.events T

/-- The events of several expressions. -/
def exprsEvents (T : Traversal) (role : Role) : List Expr → List Event
  | [] => []
  | x :: xs => x.events T role ++ exprsEvents T role xs

/-- The events of the elements of a composite literal. -/
def eltsEvents (T : Traversal) (keyed : Bool) : List Expr → List Event
  | [] => []
  | .keyValue key value _ :: xs =>
    key.events T (.key keyed) ++ value.events T .use ++ eltsEvents T keyed xs
  | x :: xs => x.events T .use ++ eltsEvents T keyed xs

/-- The events of an optional expression. -/
def exprEvents? (T : Traversal) : Option Expr → List Event
  | none => []
  | some x => x.events T .use

/-- The events of an optional iteration variable. -/
def rangeEvents? (T : Traversal) (role : Role) : Option Expr → List Event
  | none => []
  | some x => x.events T role

/-- The events of a block. -/
def Block.events (T : Traversal) : Block → List Event
  | ⟨stmts, _⟩ => stmtsEvents T stmts

/-- The events of several statements. -/
def stmtsEvents (T : Traversal) : List Stmt → List Event
  | [] => []
  | s :: ss => s.events T ++ stmtsEvents T ss

/-- The events of an optional statement. -/
def stmtEvents? (T : Traversal) : Option Stmt → List Event
  | none => []
  | some s => s.events T

/-- The events of a declaration group. -/
def GenDecl.events (T : Traversal) : GenDecl → List Event
  | ⟨_, specs, _, _, _⟩ => specsEvents T specs

/-- The events of the lines of a declaration group. -/
def specsEvents (T : Traversal) : List Spec → List Event
  | [] => []
  | .value _ ty values _ :: ss => typeEvents? T ty ++ exprsEvents T .use values ++ specsEvents T ss
  | .type _ params _ ty _ :: ss => fieldsEvents T params ++ ty.events T ++ specsEvents T ss

/-- The events of the clauses of a switch. -/
def casesEvents (T : Traversal) : List CaseClause → List Event
  | [] => []
  | .case list body _ :: cs => exprsEvents T .use list ++ stmtsEvents T body ++ casesEvents T cs
  | .default body _ :: cs => stmtsEvents T body ++ casesEvents T cs

/-- The events of the clauses of a select. -/
def commsEvents (T : Traversal) : List CommClause → List Event
  | [] => []
  | ⟨comm, body, _⟩ :: cs => stmtEvents? T comm ++ stmtsEvents T body ++ commsEvents T cs

/-- The events of a statement. -/
def Stmt.events (T : Traversal) (s : Stmt) : List Event :=
  .enter s ::
    (match s with
    | .decl d => d.events T
    | .labeled _ s _ => s.events T
    | .expr x => x.events T .statement
    | .send chan value _ => chan.events T .sendTarget ++ value.events T .use
    | .incDec x _ _ => x.events T .use
    | .assign lhs op rhs _ => exprsEvents T op.targetRole lhs ++ exprsEvents T .use rhs
    | .go call _ | .defer call _ => call.events T .use
    | .returns results _ => exprsEvents T .use results
    | .branch .. | .empty _ => []
    | .block b => b.events T
    | .ifElse init cond body els _ =>
      stmtEvents? T init ++ cond.events T .use ++ body.events T ++ stmtEvents? T els
    | .switch init tag clauses _ =>
      stmtEvents? T init ++ exprEvents? T tag ++ casesEvents T clauses
    | .typeSwitch init _ subject clauses _ =>
      stmtEvents? T init ++ subject.events T .use ++ casesEvents T clauses
    | .select clauses _ => commsEvents T clauses
    | .loop init cond post body _ =>
      stmtEvents? T init ++ exprEvents? T cond ++ stmtEvents? T post ++ body.events T
    | .range key value define x body _ =>
      rangeEvents? T (rangeRole define) key ++ rangeEvents? T (rangeRole define) value ++
        x.events T .use ++ body.events T) ++
    [.leave s]

end

/-- The events of a declaration. -/
def Decl.events (T : Traversal) : Decl → List Event
  | func f =>
    fieldsEvents T f.recv.toList ++ fieldsEvents T f.typeParams ++ f.sig.events T ++
      (f.body.map (Block.events T)).getD []
  | gen g => g.events T

/-- The events of the declarations of a file. -/
def File.events (T : Traversal) (file : File) : List Event :=
  file.decls.flatMap (Decl.events T)

/-- The name that an identifier at this event is. -/
def Event.identName? : Event → Option String
  | .expr _ (.ident id) => some id.name
  | _ => none

/-- The package that a qualified name at this event refers to. -/
def Event.qualifier? : Event → Option String
  | .expr _ (.selector (.ident base) _ _) => some base.name
  | .type (.name pkg _ _) => pkg
  | _ => none

end ServiceSplit
