import ServiceSplit.Dependency
import ServiceSplit.Imports
import ServiceSplit.Sends
import ServiceSplit.Service.Callback
import ServiceSplit.Service.Entry

/-!
# Services

The program that runs one launched function once per request and posts what it sends to the
controller.
-/

namespace ServiceSplit

/-- A service. -/
structure Service where
  /-- The launched function, which also names the service. -/
  name : String
  /-- The parameters that the function keeps. -/
  params : List EntryParam
  /-- The form of requests. -/
  payload : Payload
  /-- The channels of the function. -/
  callbacks : List Callback
  /-- The program. -/
  file : File
  /-- Its text. -/
  source : String

/-- The packages that a service may need besides those of the program it comes from. -/
def Service.packages : List String :=
  ["encoding/json", "io", "log", "net/http"]

/-- The statement that declares the names of a result as variables. -/
def Field.resultDecl (f : Field) : Stmt :=
  .decl ⟨.var, [.value f.names (some f.ty) [] .synthetic], false, [], .synthetic⟩

/-- The statement that makes a use of a variable. -/
def Ident.discarded (id : Ident) : Stmt :=
  .assign [Expr.blank] .assign [.ident (.made id.name)] .synthetic

/-- The statements that make the named results of a function variables of its body. -/
def Signature.resultDecls (sig : Signature) : List Stmt :=
  let named := sig.results.filter fun f => f.names.any (!·.isBlank)
  named.map Field.resultDecl ++
    (named.flatMap fun f => f.names.filter (!·.isBlank)).map Ident.discarded

/-- The body of a function in its service: without returns, with posts instead of sends, and with
the named results as variables. -/
def Function.serviceBody (f : Function) (config : Config) (body : Block) :
    Except Failure Block := do
  let channels := f.callbacks.map Callback.param
  let body := stripReturns f.decl.sig.arity body
  checkChannelUses f.name channels body
  (checkSingleSend body.stmts channels).mapError fun e => .secondSend f.name e.channel e.span
  let body := Callback.install config f.callbacks body
  return { body with stmts := f.decl.sig.resultDecls ++ body.stmts }

/-- The declaration of a function in its service. -/
def Function.serviceDecl (f : Function) (body : Block) : FuncDecl where
  recv := none
  name := f.decl.name
  typeParams := []
  sig := ⟨f.entryParams.map fun p => Field.made p.name p.ty, []⟩
  body := some body
  directives := f.decl.directives
  span := f.decl.span

/-- The names in the entry of a service; they differ from those of the program. -/
def Function.entry (f : Function) (needed : List Decl) : Entry :=
  let taken := f.name :: needed.flatMap Decl.packageNames
  ⟨f.name, Text.freshName "kompileHandler" taken, Text.freshName "kompileRequest" taken⟩

/-- The service of a function of a program. -/
def Program.service (program : Program) (config : Config) (f : Function) :
    Except Failure Service := do
  let some body := f.decl.body | throw (.step .build f.name .noBody)
  let decl := f.serviceDecl (← f.serviceBody config body)
  let needed ← (program.file.dependencies decl).mapError fun r =>
    .packageVariable f.name r.name r.span
  let payload := Payload.ofParams f.entryParams
  let entryText ← (f.entry needed).text payload
  let entry ← Template.decls f.name entryText
  let file : File :=
    { program.file with package := .made "main", decls := needed ++ [.func decl] ++ entry }
  let file := file.reconcileImports Service.packages
  let source ← file.render.mapError (.unprintable f.name)
  return ⟨f.name, f.entryParams, payload, f.callbacks, file, source⟩

end ServiceSplit
