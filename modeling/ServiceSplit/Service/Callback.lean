import ServiceSplit.Config.Basic
import ServiceSplit.Launch
import ServiceSplit.Text.Quoted
import ServiceSplit.Tree.Edit

/-!
# Callbacks

A service answers on a channel by posting each value to the controller. A launched function may
therefore only send on its channels or close them; sends become posts and closes disappear.
-/

namespace ServiceSplit

/-- A channel parameter of a launched function. -/
structure Callback where
  /-- The function. -/
  function : String
  /-- The parameter. -/
  param : String
  /-- The element type. -/
  elem : TypeExpr
  /-- The name under which values arrive at the controller. -/
  endpoint : String

/-- The callbacks of a function: its channel parameters with a name. -/
def Function.callbacks (f : Function) : List Callback :=
  f.params.filterMap fun p =>
    match p.name?, p.elem? with
    | some name, some elem => some ⟨f.name, name, elem, endpointName f.name name⟩
    | _, _ => none

/-- The name that a call of `close` closes. -/
def Expr.closeTarget : Expr → Option String
  | call fn [arg] _ _ => if fn.asName == some "close" then arg.asName else none
  | _ => none

/-- A use of a channel that a callback cannot have. -/
structure BadChannelUse where
  /-- The channel. -/
  channel : String
  /-- What is wrong with the use. -/
  misuse : ChannelMisuse
  /-- The place. -/
  span : Span
deriving DecidableEq, Repr, Inhabited

namespace BadChannelUse

variable (channels : List String)

/-- Whether an expression is one of the channels. -/
def isChannel (e : Expr) : Bool :=
  e.asName.any channels.contains

/-- Sends on the channels and closings of them are passed over. -/
def traversal : Traversal where
  skip role e :=
    match role with
    | .sendTarget => isChannel channels e
    | .statement => e.closeTarget.any channels.contains
    | _ => false
  signatures := false

/-- The first of some names that hides a channel. -/
def shadowing (names : List String) (span : Span) : Option BadChannelUse :=
  (names.find? channels.contains).map (⟨·, .redeclared, span⟩)

/-- A clause of a select that sends on a channel. -/
def inClause (c : CommClause) : Option BadChannelUse :=
  match c.comm with
  | some (.send chan _ _) =>
    match chan.asIdent with
    | some id => if channels.contains id.name then some ⟨id.name, .selectCase, id.span⟩ else none
    | none => none
  | _ => none

/-- What is wrong with a statement itself. -/
def inStmt (s : Stmt) : Option BadChannelUse :=
  (shadowing channels s.declaredNames s.span).or <|
    match s with
    | .range .. => shadowing channels s.implicitNames s.span
    | .typeSwitch _ (some binding) _ _ _ => shadowing channels [binding.name] binding.span
    | .select clauses _ => clauses.findSome? (inClause channels)
    | _ => none

/-- What is wrong at an event. -/
def atEvent : Event → Option BadChannelUse
  | .enter s => inStmt channels s
  | .expr _ (.ident id) =>
    if channels.contains id.name then some ⟨id.name, .otherUse, id.span⟩ else none
  | .openLit sig span => shadowing channels (Field.allNames sig.fields) span
  | _ => none

end BadChannelUse

/-- The first use of one of the channels in a body that a callback cannot have. -/
def badChannelUse? (channels : List String) (body : Block) : Option BadChannelUse :=
  (body.events (BadChannelUse.traversal channels)).findSome? (BadChannelUse.atEvent channels)

/-- Checks that the channels are only sent on or closed in the body of a function. -/
def checkChannelUses (function : String) (channels : List String) (body : Block) :
    Except Failure Unit :=
  match badChannelUse? channels body with
  | some bad => .error (.channelMisuse function bad.channel bad.misuse bad.span)
  | none => .ok ()

/-- The number of results of a function. -/
def Signature.arity (sig : Signature) : Nat :=
  sig.results.foldr (fun f n => max f.names.length 1 + n) 0

/-- The blank identifier as an expression. -/
def Expr.blank : Expr :=
  .ident (.made "_")

/-- What becomes of a `return` in a function with `arity` results: the results are still evaluated,
but not given to anyone. -/
def discardResults (arity : Nat) (results : List Expr) (span : Span) : List Stmt :=
  let kept := results.filter fun e => e.asName != some "nil"
  let width := if results.length = 1 ∧ arity > 1 then arity else kept.length
  if kept.isEmpty then []
  else [.assign (List.replicate width Expr.blank) .assign kept span]

/-- Removes the returns of a function, but not those of function literals inside it. -/
def returnEditor (arity : Nat) : Editor Id where
  onStmt s inside :=
    match s with
    | .returns results span => discardResults arity results span
    | _ => [inside]
  onExpr _ _ inside := inside
  onLit _ body _ := body

/-- A body without the returns of the function itself. -/
def stripReturns (arity : Nat) (body : Block) : Block :=
  Id.run ((returnEditor arity).block body)

namespace Callback

/-- The function that posts a value. An error is posted as its text. -/
def helper (c : Callback) : String :=
  if c.elem.isNamed "error" then "kompileCallbackError" else "kompileCallback"

/-- Where the values are posted. -/
def url (config : Config) (c : Callback) : String :=
  config.controllerUrl ++ "/" ++ c.endpoint

/-- The callback of a channel. Of two parameters of one name the last one counts. -/
def find? (callbacks : List Callback) (e : Expr) : Option Callback :=
  match e.asName with
  | some name => callbacks.reverse.find? (·.param == name)
  | none => none

/-- The statement that posts a value. -/
def post (config : Config) (c : Callback) (value : Expr) (span : Span) : Stmt :=
  .expr (.call (.ident ⟨c.helper, span⟩)
    [.lit .string (Text.quote (c.url config)) .synthetic, value] false span)

/-- Posts instead of sending, and closes nothing. -/
def editor (config : Config) (callbacks : List Callback) : Editor Id where
  onStmt _ inside :=
    match Id.run inside with
    | .send chan value span =>
      match find? callbacks chan with
      | some c => [c.post config value span]
      | none => [.send chan value span]
    | .expr x =>
      if x.closeTarget.any fun name => callbacks.any (·.param == name) then [] else [.expr x]
    | s => [s]
  onExpr _ _ inside := inside
  onLit _ _ inside := inside

/-- A body that posts to the callbacks instead of sending on their channels. -/
def install (config : Config) (callbacks : List Callback) (body : Block) : Block :=
  Id.run ((editor config callbacks).block body)

end Callback

end ServiceSplit
