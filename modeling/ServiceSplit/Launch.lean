import ServiceSplit.Program
import ServiceSplit.Scope
import ServiceSplit.Tree.Events

/-!
# Launches

The `go` statements of a program. A launch of a known function whose channel arguments are local
channels of their own can be replaced by a request to a service; every other launch stays as it is,
for a reason.
-/

namespace ServiceSplit

/-- The name of the controller, which no service can have. -/
def controllerName : String :=
  "controller"

/-- Why a launch stays. -/
inductive SkipReason where
  | unresolvedCallee
  | argumentCount (expected found : Nat)
  | spreadCall
  | variadic
  | generic
  | reservedName
  | noBody
  | noChannelParam
  | unnamedChannel (position : Nat)
  | channelArgNotIdent (param : String)
  | duplicateChannelArg (arg : String)
  | sharedChannel (arg : String)
  | channelNotLocal (arg : String)
deriving DecidableEq, Repr, Inhabited

/-- The text of a reason. -/
def SkipReason.message : SkipReason → String
  | unresolvedCallee => "callee is not a top-level function"
  | argumentCount expected found =>
    "expected " ++ Text.decimal expected ++ " arguments, found " ++ Text.decimal found
  | spreadCall => "arguments are spread with `...`"
  | variadic => "callee is variadic"
  | generic => "callee has type parameters"
  | reservedName => "`" ++ controllerName ++ "` and `main` cannot become services"
  | noBody => "callee has no body"
  | noChannelParam => "callee has no channel parameter"
  | unnamedChannel position =>
    "channel parameter " ++ Text.decimal position ++ " has no name"
  | channelArgNotIdent param => "argument for channel `" ++ param ++ "` is not a variable"
  | duplicateChannelArg arg => "`" ++ arg ++ "` is passed for more than one channel parameter"
  | sharedChannel arg => "`" ++ arg ++ "` already carries results of another launch"
  | channelNotLocal arg => "`" ++ arg ++ "` is not created in the launching function"

/-- An argument that is sent to a service. -/
structure DataArg where
  /-- The name of the parameter. -/
  param : String
  /-- Its type. -/
  ty : TypeExpr
  /-- The argument. -/
  arg : Expr

/-- A channel argument, on which a service answers. -/
structure ChannelArg where
  /-- The name of the parameter. -/
  param : String
  /-- The variable that is passed. -/
  arg : String
  /-- The span of the statement that declared the variable. -/
  decl : Span
  /-- The element type. -/
  elem : TypeExpr
  /-- The name under which answers arrive. -/
  endpoint : String

/-- A launch that is replaced by a request to a service. -/
structure Launch where
  /-- The launched function. -/
  callee : String
  /-- The span of the `go` statement. -/
  span : Span
  /-- The arguments that are sent. -/
  data : List DataArg
  /-- The channels on which answers arrive. -/
  channels : List ChannelArg

/-- A launch that stays. -/
structure SkippedLaunch where
  /-- The span of the `go` statement. -/
  span : Span
  /-- The launched function, if it has a name. -/
  callee : Option String
  /-- The reason. -/
  reason : SkipReason
deriving DecidableEq, Repr, Inhabited

/-- The name under which the answers on a channel parameter arrive. -/
def endpointName (function param : String) : String :=
  function ++ "_" ++ param

/-- The name of a data parameter in a service; without a name it is called by its position. -/
def dataParamName (name : Option String) (position : Nat) : String :=
  match name with
  | some n => n
  | none => "arg" ++ Text.decimal position

/-- Why a function cannot become a service. -/
def Function.refusal (f : Function) : Option SkipReason :=
  if f.name = controllerName ∨ f.name = "main" then some .reservedName
  else if f.decl.body.isNone then some .noBody
  else if f.isGeneric then some .generic
  else if f.isVariadic then some .variadic
  else if f.channelParams.isEmpty then some .noChannelParam
  else none

namespace Launch

/-- What is known where a launch stands. -/
structure Context where
  /-- The functions of the program. -/
  program : Program
  /-- The local names. -/
  scopes : Scopes
  /-- The declarations of channels that carry the answers of earlier launches. -/
  claimed : List Span

/-- The declaration of the channel `arg`, which has to be made in the launching function and be
free. -/
def Context.channelOrigin (ctx : Context) (arg : String) : Except SkipReason Span :=
  match ctx.scopes.channelDecl? arg with
  | none => .error (.channelNotLocal arg)
  | some decl => if ctx.claimed.contains decl then .error (.sharedChannel arg) else .ok decl

/-- The channel argument `arg` for the channel parameter `param` of `function`; `taken` are the
variables passed for earlier ones. -/
def Context.channelArg (ctx : Context) (function : String) (taken : List String)
    (param : String) (elem : TypeExpr) (arg : Expr) : Except SkipReason ChannelArg :=
  match arg.asName with
  | none | some "_" => .error (.channelArgNotIdent param)
  | some name =>
    if taken.contains name then
      .error (.duplicateChannelArg name)
    else do
      let decl ← ctx.channelOrigin name
      return ⟨param, name, decl, elem, endpointName function param⟩

/-- The arguments of a launch from parameter number `position` on. -/
def Context.arguments (ctx : Context) (function : String) :
    (position : Nat) → (taken : List String) → List (Param × Expr) →
      Except SkipReason (List DataArg × List ChannelArg)
  | _, _, [] => .ok ([], [])
  | position, taken, (param, arg) :: rest =>
    match param.elem?, param.name? with
    | none, name => do
      let (data, channels) ← ctx.arguments function (position + 1) taken rest
      return (⟨dataParamName name position, param.ty, arg⟩ :: data, channels)
    | some _, none => .error (.unnamedChannel position)
    | some elem, some name => do
      let channel ← ctx.channelArg function taken name elem arg
      let (data, channels) ←
        ctx.arguments function (position + 1) (channel.arg :: taken) rest
      return (data, channel :: channels)

/-- The function that a callee names, if it is not a local name. -/
def Context.callee? (ctx : Context) (fn : Expr) : Option Function :=
  match fn.asName with
  | some name => if ctx.scopes.isLocal name then none else ctx.program.find? name
  | none => none

/-- The launch of `f` with some arguments. -/
def Context.launchOf (ctx : Context) (span : Span) (f : Function) (args : List Expr)
    (spread : Bool) : Except SkipReason Launch :=
  match f.refusal with
  | some reason => .error reason
  | none =>
    if spread then .error .spreadCall
    else if args.length ≠ f.params.length then
      .error (.argumentCount f.params.length args.length)
    else do
      let (data, channels) ← ctx.arguments f.name 0 [] (f.params.zip args)
      return ⟨f.name, span, data, channels⟩

/-- The launch that a `go` statement is, or why it stays. -/
def Context.classify (ctx : Context) (span : Span) (call : Expr) :
    Except SkippedLaunch Launch :=
  match call with
  | .call fn args spread _ =>
    match ctx.callee? fn with
    | none => .error ⟨span, fn.asName, .unresolvedCallee⟩
    | some f => (ctx.launchOf span f args spread).mapError (⟨span, some f.name, ·⟩)
  | _ => .error ⟨span, none, .unresolvedCallee⟩

end Launch

/-- The launches of a program in the order of its text. -/
structure Launches where
  /-- The launches that are replaced. -/
  sites : List Launch := []
  /-- The launches that stay. -/
  skipped : List SkippedLaunch := []

namespace Launches

/-- The functions that become services, in the order of their first launch. -/
def callees (ls : Launches) : List String :=
  (ls.sites.map Launch.callee).eraseDups

/-- The launch at a span. -/
def at? (ls : Launches) (span : Span) : Option Launch :=
  ls.sites.find? (·.span == span)

/-- The declarations of the channels that carry answers. -/
def claimed (ls : Launches) : List Span :=
  ls.sites.flatMap fun l => l.channels.map ChannelArg.decl

/-- Adds what a `go` statement is found to be. -/
def add (ls : Launches) : Except SkippedLaunch Launch → Launches
  | .ok l => { ls with sites := ls.sites ++ [l] }
  | .error s => { ls with skipped := ls.skipped ++ [s] }

/-- What is known on the way through a program. -/
structure Search where
  /-- The local names. -/
  scopes : Scopes := {}
  /-- The launches found so far. -/
  found : Launches := {}

/-- Looks at one event. -/
def Search.step (program : Program) (st : Search) : Event → Search
  | .enter s =>
    let found := match s with
      | .go call span =>
        st.found.add (Launch.Context.classify ⟨program, st.scopes, st.found.claimed⟩ span call)
      | _ => st.found
    ⟨if s.opensScope then st.scopes.push.bindImplicit s else st.scopes, found⟩
  | .leave s =>
    let scopes := if s.opensScope then st.scopes.pop else st.scopes
    { st with scopes := scopes.bindDeclared s }
  | .openLit sig _ => { st with scopes := st.scopes.pushFunction.bindSignature sig }
  | .closeLit => { st with scopes := st.scopes.pop }
  | _ => st

/-- The local names at the start of the body of a function. -/
def bodyScopes (f : FuncDecl) : Scopes :=
  ((Scopes.bindFields {} f.typeParams).bindFields f.recv.toList).bindSignature f.sig

/-- Bodies are visited without the signatures of function literals. -/
def traversal : Traversal :=
  { signatures := false }

/-- Looks at the body of a function. -/
def Search.body (program : Program) (found : Launches) (f : FuncDecl) : Launches :=
  match f.body with
  | none => found
  | some b => ((b.events traversal).foldl (Search.step program) ⟨bodyScopes f, found⟩).found

end Launches

/-- The launches of a program. -/
def Program.launches (p : Program) : Launches :=
  p.file.functions.foldl (Launches.Search.body p) {}

end ServiceSplit
