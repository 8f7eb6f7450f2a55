import ServiceSplit.Controller.Basic

/-!
# Compilations

A program as a controller and its services.
-/

namespace ServiceSplit

/-- A program in parts. -/
structure Compilation where
  /-- The launches of the program. -/
  launches : Launches
  /-- The controller. -/
  controller : Controller
  /-- The services, in the order of the first launch. -/
  services : List Service

/-- The service of the function called `name`. -/
def Program.serviceOf (program : Program) (config : Config) (name : String) :
    Except Failure Service :=
  match program.find? name with
  | some f => program.service config f
  | none => .error (.step .build name .unknownFunction)

/-- The controller and the services of a program. -/
def Program.compile (program : Program) (config : Config) : Except Failure Compilation := do
  let launches := program.launches
  let services ← launches.callees.mapM (program.serviceOf config)
  let controller ← program.controller launches services
  return ⟨launches, controller, services⟩

/-- The controller of a program, with the services of the known functions among `names` only. -/
def Program.controllerWith (program : Program) (config : Config) (names : List String) :
    Except Failure Controller := do
  let services ← (names.filterMap program.find?).mapM (program.service config)
  program.controller program.launches services

end ServiceSplit
