import ServiceSplit.Scope
import ServiceSplit.Tree.Events

/-!
# Dependencies of a function

The declarations of a file that a function needs, directly or through others. A package variable is
state that another program cannot share, so a function that needs one has no dependencies to give.
-/

namespace ServiceSplit

/-- A name that is not local at its place. -/
structure Reference where
  /-- The name. -/
  name : String
  /-- The place; types have none. -/
  span : Span
  /-- Whether the name surely refers to a declaration. A key in a composite literal may be the name
  of a field. -/
  hard : Bool
deriving DecidableEq, Repr, Inhabited

namespace Reference

/-- What is known on the way through a declaration. -/
structure Search where
  /-- The local names. -/
  scopes : Scopes := {}
  /-- The references so far, the last one first. -/
  found : List Reference := []

/-- Notes a name unless it is local. -/
def Search.note (st : Search) (r : Reference) : Search :=
  if st.scopes.isLocal r.name then st else { st with found := r :: st.found }

/-- Looks at one event. -/
def Search.step (st : Search) : Event → Search
  | .enter s => if s.opensScope then { st with scopes := st.scopes.push.bindImplicit s } else st
  | .leave s =>
    let scopes := if s.opensScope then st.scopes.pop else st.scopes
    { st with scopes := scopes.bindDeclared s }
  | .expr (.key false) (.ident id) => st.note ⟨id.name, id.span, false⟩
  | .expr _ (.ident id) => st.note ⟨id.name, id.span, true⟩
  | .expr _ _ => st
  | .type (.name none name _) => st.note ⟨name, .synthetic, true⟩
  | .type _ => st
  | .openLit _ _ => { st with scopes := st.scopes.push }
  | .bodyLit sig => { st with scopes := st.scopes.bindSignature sig }
  | .closeLit => { st with scopes := st.scopes.pop }

/-- Names that are defined are passed over. -/
def traversal : Traversal :=
  { skip := fun role _ => role == .defined }

/-- Looks at several events. -/
def Search.run (st : Search) (events : List Event) : Search :=
  events.foldl step st

/-- The references of some events where only the names of `scopes` are local. -/
def inEvents (scopes : Scopes) (events : List Event) : List Reference :=
  (Search.run { scopes } events).found.reverse

end Reference

/-- The type arguments of a receiver type. -/
def TypeExpr.receiverArgs : TypeExpr → List TypeExpr
  | name _ _ args => args
  | pointer inner | paren inner => inner.receiverArgs
  | _ => []

/-- The name of a receiver type. -/
def TypeExpr.receiverBase : TypeExpr → Option String
  | name none n _ => some n
  | pointer inner | paren inner => inner.receiverBase
  | _ => none

/-- The name of a type without package. -/
def TypeExpr.plainName : TypeExpr → Option String
  | name none n _ => some n
  | _ => none

/-- The names that the type parameters of a declaration and its receiver give. -/
def FuncDecl.outerScopes (f : FuncDecl) : Scopes :=
  let scopes := (Scopes.bindFields {} f.typeParams).bindFields f.recv.toList
  scopes.bindAll (f.recv.toList.flatMap fun r => r.ty.receiverArgs.filterMap TypeExpr.plainName)

/-- The references of a function declaration. -/
def FuncDecl.references (f : FuncDecl) : List Reference :=
  let T := Reference.traversal
  let head := Reference.Search.run { scopes := f.outerScopes }
    (fieldsEvents T f.recv.toList ++ fieldsEvents T f.typeParams)
  let body := ({ head with scopes := head.scopes.bindSignature f.sig } : Reference.Search).run
    (f.sig.events T ++ (f.body.map (Block.events T)).getD [])
  body.found.reverse

/-- The references of a line of types. -/
def Spec.typeReferences : Spec → List Reference
  | type _ params _ ty _ =>
    Reference.inEvents (Scopes.bindFields (Scopes.push {}) params)
      (fieldsEvents Reference.traversal params ++ ty.events Reference.traversal)
  | value .. => []

/-- The references of a line of variables or constants. -/
def Spec.valueReferences : Spec → List Reference
  | value _ ty values _ =>
    Reference.inEvents {}
      (typeEvents? Reference.traversal ty ++ exprsEvents Reference.traversal .use values)
  | type .. => []

/-- The references of a declaration. -/
def Decl.references : Decl → List Reference
  | func f => f.references
  | gen g => g.specs.flatMap Spec.typeReferences ++ g.specs.flatMap Spec.valueReferences

/-- What a name of a package stands for. Functions and groups are given by their position. -/
inductive PackageEntry where
  | func (position : Nat)
  | var
  /-- A group of constants or types. -/
  | group (position : Nat)
deriving DecidableEq, Repr, Inhabited

/-- What the names of a file stand for. -/
structure PackageIndex where
  /-- The names; the last declaration of a name comes first. -/
  entries : List (String × PackageEntry) := []
  /-- The methods, by the name of the receiver type. -/
  methods : List (String × Nat) := []

namespace PackageIndex

/-- The names that a line of a declaration group declares in a package. -/
def specNames : Spec → List String
  | .value names _ _ _ => (names.filter (!·.isBlank)).map Ident.name
  | .type name _ _ _ _ => [name.name]

/-- What a declaration group declares. -/
def groupEntry (kind : GenKind) (position : Nat) : PackageEntry :=
  match kind with
  | .var => .var
  | .const | .type => .group position

/-- Adds a declaration. -/
def add (index : PackageIndex) : Decl × Nat → PackageIndex
  | (.func f, position) =>
    match f.recv with
    | some recv =>
      match recv.ty.receiverBase with
      | some base => { index with methods := index.methods ++ [(base, position)] }
      | none => index
    | none => { index with entries := (f.name.name, .func position) :: index.entries }
  | (.gen g, position) =>
    let names := g.specs.flatMap specNames
    let entry := groupEntry g.kind position
    { index with entries := names.foldl (fun es name => (name, entry) :: es) index.entries }

/-- The index of a file. -/
def ofFile (file : File) : PackageIndex :=
  file.decls.zipIdx.foldl add {}

/-- The positions of the methods of a type. -/
def methodsOf (index : PackageIndex) (name : String) : List Nat :=
  (index.methods.filter (·.1 == name)).map Prod.snd

/-- The positions of the declarations that a name pulls in. -/
def positions (index : PackageIndex) (name : String) : PackageEntry → List Nat
  | .func position => [position]
  | .var => []
  | .group position => position :: index.methodsOf name

end PackageIndex

/-- The declarations that are found to be needed. -/
structure Needed where
  /-- Their positions. -/
  included : List Nat := []
  /-- References that have not been looked at yet, the latest first. -/
  pending : List (List Reference) := []

namespace Needed

/-- Adds the declaration at a position. -/
def take (decls : List Decl) (st : Needed) (position : Nat) : Needed :=
  if st.included.contains position then st
  else
    { included := position :: st.included
      pending := ((decls[position]?.map Decl.references).getD []) :: st.pending }

/-- Follows a reference of a function named `root` or of what it needs; a sure reference to a
variable is refused. -/
def follow (index : PackageIndex) (decls : List Decl) (root : String) (st : Needed)
    (r : Reference) : Except Reference Needed :=
  match index.entries.lookup r.name with
  | none => .ok st
  | some .var => if r.hard then .error r else .ok st
  | some (.func position) =>
    if r.name = root then .ok st else .ok (st.take decls position)
  | some entry => .ok ((index.positions r.name entry).foldl (take decls) st)

/-- Follows references until none is left. Each round takes up a declaration that was not taken up
before, so their number bounds the rounds. -/
def close (index : PackageIndex) (decls : List Decl) (root : String) :
    (rounds : Nat) → Needed → Except Reference Needed
  | 0, st => .ok st
  | n + 1, st =>
    match st.pending with
    | [] => .ok st
    | refs :: rest => do
      let st ← refs.foldlM (follow index decls root) { st with pending := rest }
      close index decls root n st

end Needed

/-- The declarations of a file that a function needs, in source order, without the function itself;
or the first sure reference to a variable of the package. -/
def File.dependencies (file : File) (root : FuncDecl) : Except Reference (List Decl) := do
  let index := PackageIndex.ofFile file
  let start : Needed := { pending := [root.references] }
  let st ← start.close index file.decls root.name.name (file.decls.length + 1)
  return (file.decls.zipIdx.filter fun d => st.included.contains d.2).map Prod.fst

end ServiceSplit
