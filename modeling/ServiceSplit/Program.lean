import ServiceSplit.Failure
import ServiceSplit.Parser.File

/-!
# Programs

An executable program with the functions it declares. Methods, `init` and functions without a name
cannot be launched by name and are not among them.
-/

namespace ServiceSplit

/-- A parameter of a function. -/
structure Param where
  /-- The name, unless there is none or it is blank. -/
  name? : Option String
  /-- The type. -/
  ty : TypeExpr
  /-- The element type of a channel. -/
  elem? : Option TypeExpr

/-- Whether a parameter is a channel. -/
def Param.isChannel (p : Param) : Bool :=
  p.elem?.isSome

/-- The parameters of a field. -/
def Param.ofField (f : Field) : List Param :=
  match f.names with
  | [] => [⟨none, f.ty, f.ty.chanElem⟩]
  | names =>
    names.map fun id => ⟨if id.isBlank then none else some id.name, f.ty, f.ty.chanElem⟩

/-- A function that can be launched by name. -/
structure Function where
  /-- The parameters. -/
  params : List Param
  /-- The declaration. -/
  decl : FuncDecl

namespace Function

/-- The function of a declaration. -/
def ofDecl (decl : FuncDecl) : Function :=
  ⟨decl.sig.params.flatMap Param.ofField, decl⟩

/-- The name. -/
def name (f : Function) : String :=
  f.decl.name.name

/-- Whether the last parameter takes any number of arguments. -/
def isVariadic (f : Function) : Bool :=
  f.decl.sig.params.any (·.ty.isEllipsis)

/-- Whether there are type parameters. -/
def isGeneric (f : Function) : Bool :=
  !f.decl.typeParams.isEmpty

/-- The parameters that are channels. -/
def channelParams (f : Function) : List Param :=
  f.params.filter Param.isChannel

/-- The parameters that are not channels. -/
def dataParams (f : Function) : List Param :=
  f.params.filter (!·.isChannel)

end Function

/-- A program. -/
structure Program where
  /-- The tree of its file. -/
  file : File
  /-- Its functions, sorted by name. -/
  functions : List Function

/-- The function with a given name. -/
def Program.find? (p : Program) (name : String) : Option Function :=
  p.functions.find? (·.name == name)

/-- Whether a declared function can be launched by name. -/
def FuncDecl.isLaunchable (f : FuncDecl) : Bool :=
  !f.isMethod && f.name.name != "init" && !f.name.isBlank

namespace Function

/-- The first function of each name, in source order, and the errors of all others. -/
def collect : List FuncDecl → (known : List Function) → List Function × List SyntaxError
  | [], _ => ([], [])
  | d :: ds, known =>
    match known.find? (·.name == d.name.name) with
    | some first =>
      let (functions, errors) := collect ds known
      (functions,
        ⟨.redeclared d.name.name first.decl.name.span.start, d.name.span⟩ :: errors)
    | none =>
      let f := ofDecl d
      let (functions, errors) := collect ds (f :: known)
      (f :: functions, errors)

end Function

/-- The program of a source text that is read from `path`. -/
def Program.load (path source : String) : Except Failure Program :=
  match parseFile source with
  | .error errors => .error (.badSyntax path errors)
  | .ok file =>
    if file.package.name != "main" then
      .error (.badSyntax path [⟨.notMainPackage file.package.name, file.package.span⟩])
    else
      match Function.collect (file.functions.filter FuncDecl.isLaunchable) [] with
      | (functions, []) => .ok ⟨file, functions.mergeSort fun f g => f.name ≤ g.name⟩
      | (_, errors) => .error (.badSyntax path errors)

end ServiceSplit
