import ServiceSplit.Controller.Dispatch
import ServiceSplit.Controller.Route

/-!
# The controller

The program that is left when launched functions have become services: it dispatches where it
launched, and takes the answers of services from routing slots.
-/

namespace ServiceSplit

/-- What is known on the way through the body of a function. -/
structure Progress where
  /-- Whether the function has results. -/
  hasResults : Bool := false
  /-- The channels of the launches replaced in the body so far. -/
  channels : List ChannelArg := []
  /-- The services dispatched to so far in the whole program. -/
  dispatched : List String := []

/-- Edits of bodies, which may fail. -/
abbrev Dispatching := StateT Progress (Except Failure)

/-- Edits the body of a function by `inside`, and then puts slots in place of the channels of the
launches that were replaced in it. -/
def inFunction (sig : Signature) (inside : Dispatching Block) : Dispatching Block := do
  let around ← get
  set { around with hasResults := !sig.results.isEmpty, channels := [] }
  let body ← inside
  let found ← get
  set { around with dispatched := found.dispatched }
  return reroute found.channels body

/-- Puts a dispatch in place of a launch. -/
def replaceLaunch (services : List Service) (l : Launch) : Dispatching (List Stmt) := do
  let here ← get
  let stmts ← l.dispatch services here.hasResults
  set { here with
    channels := here.channels ++ l.channels
    dispatched := here.dispatched ++ [l.callee] }
  return stmts

/-- Puts dispatches in place of launches. -/
def launchEditor (launches : Launches) (services : List Service) : Editor Dispatching where
  onStmt s inside :=
    match s with
    | .go _ span =>
      match launches.at? span with
      | some l => replaceLaunch services l
      | none => return [← inside]
    | _ => return [← inside]
  onExpr _ _ inside := inside
  onLit sig _ inside := inFunction sig inside

/-- Edits a declaration. -/
def Editor.decl (E : Editor Dispatching) : Decl → Dispatching Decl
  | .func f =>
    match f.body with
    | none => return .func f
    | some body => return .func { f with body := some (← inFunction f.sig (E.block body)) }
  | .gen d => return .gen (← E.genDecl d)

/-- The declarations of a file without the functions in `services` that no expression mentions. -/
def withoutUnused (services : List String) (file : File) : File :=
  let mentioned := (file.events {}).filterMap Event.identName?
  { file with decls := file.decls.filter fun d =>
      match d with
      | .func f => f.isMethod || !services.contains f.name.name || mentioned.contains f.name.name
      | .gen _ => true }

/-- The packages that the controller may need besides those of the program. -/
def controllerPackages : List String :=
  ["bytes", "encoding/json", "errors", "log", "net/http", "strings"]

/-- The controller. -/
structure Controller where
  /-- The program. -/
  file : File
  /-- Its text. -/
  source : String
  /-- The endpoints. -/
  routes : List Route
  /-- The services it dispatches to, in the order of the first dispatch. -/
  services : List String

/-- The controller of a program whose launches are given, with their services. -/
def Program.controller (program : Program) (launches : Launches) (services : List Service) :
    Except Failure Controller := do
  let editor := launchEditor launches services
  let (decls, progress) ← (program.file.decls.mapM editor.decl).run {}
  let file := withoutUnused (services.map Service.name) { program.file with decls }
  let routes := nameHandlers (file.decls.flatMap Decl.packageNames) launches.slots
  let added ← if routes.isEmpty then .ok [] else Route.decls routes
  let file := { file with decls := file.decls ++ added }.reconcileImports controllerPackages
  let source ← file.render.mapError (.unprintable controllerName)
  return ⟨file, source, routes, progress.dispatched.eraseDups⟩

end ServiceSplit
