import ServiceSplit.Dependency

/-!
# Uses of names

The names that expressions and types use, each with what is declared at its place. Two readings of
the scopes are kept side by side. By the rules of the language every block, every branch and every
clause is a scope of its own, a local declaration is visible after its line, and the names that a
range, a type switch or a function declares are visible in its bodies only. The reading in one scope
per statement lets the names of a branch or clause reach the later ones, and takes the names that a
statement or a function declares for its parts as declared from its first word on.
-/

namespace ServiceSplit

/-- The local names at a place. -/
structure Sight where
  /-- The names that are visible by the rules of the language. -/
  visible : List String := []
  /-- The names that are declared if each statement is one scope. -/
  tracked : List String := []

namespace Sight

/-- Declares names in both readings. -/
def declare (σ : Sight) (names : List String) : Sight :=
  ⟨names ++ σ.visible, names ++ σ.tracked⟩

/-- Declares names by the rules of the language. -/
def see (σ : Sight) (names : List String) : Sight :=
  { σ with visible := names ++ σ.visible }

/-- Declares names if each statement is one scope. -/
def track (σ : Sight) (names : List String) : Sight :=
  { σ with tracked := names ++ σ.tracked }

/-- The names after a statement. -/
def after (σ : Sight) (s : Stmt) : Sight :=
  σ.declare s.declaredNames

/-- The names after several statements. -/
def afterAll (σ : Sight) (ss : List Stmt) : Sight :=
  ss.foldl after σ

/-- The names beside several statements that have a scope of their own by the rules of the
language. -/
def beside (σ : Sight) (ss : List Stmt) : Sight :=
  { σ with tracked := (σ.afterAll ss).tracked }

end Sight

/-- A name at a place where it is used. -/
structure NameUse where
  /-- The name with its place. -/
  id : Ident
  /-- Whether it is the key of a literal whose type is not written as a map, slice or array, and may
  so be the name of a field. -/
  isKey : Bool
  /-- Whether it is local by the rules of the language. -/
  isLocal : Bool
  /-- Whether it is local if each statement is one scope. -/
  isTracked : Bool
deriving DecidableEq, Repr

/-- The use of a name at a place. -/
def Sight.use (σ : Sight) (id : Ident) (isKey : Bool) : NameUse :=
  ⟨id, isKey, σ.visible.contains id.name, σ.tracked.contains id.name⟩

mutual

/-- The names that a type uses. -/
def TypeExpr.uses (σ : Sight) : TypeExpr → List NameUse
  | .name none n args => σ.use (.made n) false :: typesUses σ args
  | .name (some _) _ args => typesUses σ args
  | .pointer e | .slice e | .chan _ e | .ellipsis e | .paren e => e.uses σ
  | .array len e => exprUses? σ len ++ e.uses σ
  | .map k v => k.uses σ ++ v.uses σ
  | .func sig => sig.uses σ
  | .struct fields => fieldsUses σ fields
  | .interface elems => elemsUses σ elems
  | .union terms => termsUses σ terms

/-- The names that several types use. -/
def typesUses (σ : Sight) : List TypeExpr → List NameUse
  | [] => []
  | t :: ts => t.uses σ ++ typesUses σ ts

/-- The names that an optional type uses. -/
def typeUses? (σ : Sight) : Option TypeExpr → List NameUse
  | none => []
  | some t => t.uses σ

/-- The names that the types of fields use. -/
def fieldsUses (σ : Sight) : List Field → List NameUse
  | [] => []
  | ⟨_, ty, _, _⟩ :: fs => ty.uses σ ++ fieldsUses σ fs

/-- The names that the types of parameters and results use. -/
def Signature.uses (σ : Sight) : Signature → List NameUse
  | ⟨params, results⟩ => fieldsUses σ params ++ fieldsUses σ results

/-- The names that the lines of an interface type use. -/
def elemsUses (σ : Sight) : List InterfaceElem → List NameUse
  | [] => []
  | .method _ sig :: es => sig.uses σ ++ elemsUses σ es
  | .embedded t :: es => t.uses σ ++ elemsUses σ es

/-- The names that the terms of a union use. -/
def termsUses (σ : Sight) : List UnionTerm → List NameUse
  | [] => []
  | ⟨_, ty⟩ :: ts => ty.uses σ ++ termsUses σ ts

/-- The names that an expression uses. The parameters and results of a function literal are declared
in its body only. -/
def Expr.uses (σ : Sight) : Expr → List NameUse
  | .ident id => [σ.use id false]
  | .lit .. => []
  | .composite ty elts _ => exprUses? σ ty ++ eltsUses σ (keysAreValues ty) elts
  | .funcLit sig body _ => sig.uses σ ++ body.uses (σ.declare (Field.allNames sig.fields))
  | .paren x _ | .selector x _ _ | .star x _ | .unary _ x _ => x.uses σ
  | .index x indices _ => x.uses σ ++ exprsUses σ indices
  | .slice x low high max _ _ =>
    x.uses σ ++ exprUses? σ low ++ exprUses? σ high ++ exprUses? σ max
  | .typeAssert x ty _ => x.uses σ ++ typeUses? σ ty
  | .call fn args _ _ => fn.uses σ ++ exprsUses σ args
  | .binary _ x y _ => x.uses σ ++ y.uses σ
  | .keyValue key value _ => key.uses σ ++ value.uses σ
  | .type ty _ => ty.uses σ

/-- The names that several expressions use. -/
def exprsUses (σ : Sight) : List Expr → List NameUse
  | [] => []
  | x :: xs => x.uses σ ++ exprsUses σ xs

/-- The names that the elements of a composite literal use; `keyed` tells that its type is written
as one whose keys are values. -/
def eltsUses (σ : Sight) (keyed : Bool) : List Expr → List NameUse
  | [] => []
  | .keyValue (.ident id) value _ :: xs =>
    σ.use id (!keyed) :: value.uses σ ++ eltsUses σ keyed xs
  | .keyValue key value _ :: xs => key.uses σ ++ value.uses σ ++ eltsUses σ keyed xs
  | x :: xs => x.uses σ ++ eltsUses σ keyed xs

/-- The names that an optional expression uses. -/
def exprUses? (σ : Sight) : Option Expr → List NameUse
  | none => []
  | some x => x.uses σ

/-- The names that a block uses. -/
def Block.uses (σ : Sight) : Block → List NameUse
  | ⟨stmts, _⟩ => stmtsUses σ stmts

/-- The names that several statements use. -/
def stmtsUses (σ : Sight) : List Stmt → List NameUse
  | [] => []
  | s :: ss => s.uses σ ++ stmtsUses (σ.after s) ss

/-- The names that an optional statement uses. -/
def stmtUses? (σ : Sight) : Option Stmt → List NameUse
  | none => []
  | some s => s.uses σ

/-- The names that the lines of a local declaration group use. By the rules of the language the
names of a line are declared for the later ones, and a type also for its own line. -/
def specsUses (σ : Sight) : List Spec → List NameUse
  | [] => []
  | .value names ty values _ :: ss =>
    typeUses? σ ty ++ exprsUses σ values ++ specsUses (σ.see (names.map Ident.name)) ss
  | .type name params _ ty _ :: ss =>
    fieldsUses (σ.see (name.name :: Field.allNames params)) params ++
      ty.uses (σ.see (name.name :: Field.allNames params)) ++ specsUses (σ.see [name.name]) ss

/-- The names that a local declaration group uses. -/
def GenDecl.uses (σ : Sight) : GenDecl → List NameUse
  | ⟨_, specs, _, _, _⟩ => specsUses σ specs

/-- The names that the clauses of a switch use; `bound` is declared in their bodies. -/
def casesUses (σ : Sight) (bound : List String) : List CaseClause → List NameUse
  | [] => []
  | .case list body _ :: cs =>
    exprsUses σ list ++ stmtsUses (σ.see bound) body ++ casesUses (σ.beside body) bound cs
  | .default body _ :: cs =>
    stmtsUses (σ.see bound) body ++ casesUses (σ.beside body) bound cs

/-- The names that the clauses of a select use. -/
def commsUses (σ : Sight) : List CommClause → List NameUse
  | [] => []
  | ⟨comm, body, _⟩ :: cs =>
    stmtUses? σ comm ++ stmtsUses (σ.afterAll comm.toList) body ++
      commsUses (σ.beside (comm.toList ++ body)) cs

/-- The names that a statement uses. -/
def Stmt.uses (σ : Sight) : Stmt → List NameUse
  | .decl d => d.uses σ
  | .labeled _ s _ => s.uses σ
  | .expr x => x.uses σ
  | .send chan value _ => chan.uses σ ++ value.uses σ
  | .incDec x _ _ => x.uses σ
  | .assign lhs op rhs _ =>
    (if op = .define then [] else exprsUses σ lhs) ++ exprsUses σ rhs
  | .go call _ | .defer call _ => call.uses σ
  | .returns results _ => exprsUses σ results
  | .branch .. | .empty _ => []
  | .block b => b.uses σ
  | .ifElse init cond body els _ =>
    stmtUses? σ init ++ cond.uses (σ.afterAll init.toList) ++
      body.uses (σ.afterAll init.toList) ++
      stmtUses? ((σ.afterAll init.toList).beside body.stmts) els
  | .switch init tag clauses _ =>
    stmtUses? σ init ++ exprUses? (σ.afterAll init.toList) tag ++
      casesUses (σ.afterAll init.toList) [] clauses
  | .typeSwitch init binding subject clauses _ =>
    let bound := binding.toList.map Ident.name
    let σ := σ.track bound
    stmtUses? σ init ++ subject.uses (σ.afterAll init.toList) ++
      casesUses (σ.afterAll init.toList) bound clauses
  | .select clauses _ => commsUses σ clauses
  | .loop init cond post body _ =>
    stmtUses? σ init ++ exprUses? (σ.afterAll init.toList) cond ++
      stmtUses? (σ.afterAll init.toList) post ++
      body.uses ((σ.afterAll init.toList).beside post.toList)
  | .range key value define x body _ =>
    let bound := if define then Expr.namesOf (key.toList ++ value.toList) else []
    let σ := σ.track bound
    (if define then [] else exprUses? σ key ++ exprUses? σ value) ++ x.uses σ ++
      body.uses (σ.see bound)

end

/-- The names in the head of a function declaration, up to its parameters. Type parameters are
visible in the whole declaration, the receiver is not. -/
def FuncDecl.headSight (f : FuncDecl) : Sight :=
  let types := Field.allNames f.typeParams ++
    f.recv.toList.flatMap fun r => r.ty.receiverArgs.filterMap TypeExpr.plainName
  ⟨types, Field.allNames f.recv.toList ++ types⟩

/-- The names that a function declaration uses. The receiver, the parameters and the results are
visible in the body only. -/
def FuncDecl.uses (f : FuncDecl) : List NameUse :=
  let values := Field.allNames f.sig.fields
  let σ := f.headSight.track values
  fieldsUses f.headSight f.recv.toList ++ fieldsUses f.headSight f.typeParams ++ f.sig.uses σ ++
    (f.body.map (Block.uses (σ.see (values ++ Field.allNames f.recv.toList)))).getD []

/-- The names that a line of a declaration group of the package uses. -/
def Spec.uses : Spec → List NameUse
  | value _ ty values _ => typeUses? {} ty ++ exprsUses {} values
  | type _ params _ ty _ =>
    let σ : Sight := ⟨Field.allNames params, Field.allNames params⟩
    fieldsUses σ params ++ ty.uses σ

/-- The names that a declaration of the package uses. -/
def Decl.uses : Decl → List NameUse
  | func f => f.uses
  | gen g => g.specs.flatMap Spec.uses

end ServiceSplit
