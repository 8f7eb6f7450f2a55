import ServiceSplit.Controller.Slot
import ServiceSplit.Template
import ServiceSplit.Text.FreshName

/-!
# Routes

The handlers with which the controller takes in what services post, and the routing table that they
fill.
-/

namespace ServiceSplit

/-- An endpoint of the controller. -/
structure Route where
  /-- The endpoint. -/
  endpoint : String
  /-- The type of the values that arrive. -/
  elem : TypeExpr
  /-- The name of the handler. -/
  handler : String

/-- Inserts a slot into a list in the order of endpoints, unless its endpoint is there. -/
def Slot.insert (slot : Slot) : List Slot → List Slot
  | [] => [slot]
  | s :: ss =>
    if slot.endpoint < s.endpoint then slot :: s :: ss
    else if slot.endpoint = s.endpoint then s :: ss
    else s :: insert slot ss

/-- The slots of all launches, in the order of their endpoints. Of several launches with one
endpoint the first gives the type. -/
def Launches.slots (ls : Launches) : List Slot :=
  (ls.sites.flatMap fun l => l.channels.map ChannelArg.slot).foldl (fun ss s => s.insert ss) []

/-- The routes of some slots. The names of their handlers are not `taken` and differ. -/
def nameHandlers (taken : List String) : List Slot → List Route
  | [] => []
  | s :: ss =>
    let handler := Text.freshName (s.endpoint ++ "Handler") taken
    ⟨s.endpoint, s.elem, handler⟩ :: nameHandlers (handler :: taken) ss

namespace Route

/-- The text of the type of the values. -/
def elemText (r : Route) : Except Failure String :=
  Template.type controllerName r.elem

/-- The line of a route in the routing table. -/
def tableLine (r : Route) : Except Failure String := do
  return "\t" ++ Text.quote r.endpoint ++ ": make(chan " ++ (← r.elemText) ++ ", 1),"

/-- Whether the values are errors, which arrive as their text or as nothing. -/
def isError (r : Route) : Bool :=
  r.elem.isNamed "error"

/-- The handler of a route. -/
def handlerLines (r : Route) : Except Failure (List String) := do
  let elem ← r.elemText
  let declared := if r.isError then "message *string" else "value " ++ elem
  let decoded := if r.isError then "message" else "value"
  let rebuilt :=
    if r.isError then
      ["\tvar value error",
        "\tif message != nil \x7b",
        "\t\tvalue = errors.New(*message)",
        "\t\x7d"]
    else []
  return [
      "func " ++ r.handler ++ "(w http.ResponseWriter, r *http.Request) \x7b",
      "\tvar " ++ declared,
      "\tif err := json.NewDecoder(r.Body).Decode(&" ++ decoded ++ "); err != nil \x7b",
      "\t\thttp.Error(w, \"could not decode callback: \"+err.Error(), http.StatusBadRequest)",
      "\t\treturn",
      "\t\x7d"] ++
    rebuilt ++
    ["\t" ++ routesName ++ "[" ++ Text.quote r.endpoint ++ "].(chan " ++ elem ++ ") <- value",
      "\tw.WriteHeader(http.StatusOK)",
      "\x7d",
      ""]

/-- The line that registers a handler. -/
def registration (r : Route) : String :=
  "\thttp.HandleFunc(" ++ Text.quote ("/" ++ r.endpoint) ++ ", " ++ r.handler ++ ")"

/-- The text of the routing table, the handlers and their registration. -/
def text (routes : List Route) : Except Failure String := do
  let table ← routes.mapM tableLine
  let handlers ← routes.mapM handlerLines
  return Text.lines <|
    ["var " ++ routesName ++ " = map[string]any\x7b"] ++ table ++ ["\x7d", ""] ++
    handlers.flatten ++
    ["func init() \x7b"] ++ routes.map registration ++ ["\tgo kompileListen()", "\x7d"]

/-- The declarations for some routes. -/
def decls (routes : List Route) : Except Failure (List Decl) := do
  Template.decls controllerName (← text routes)

end Route

end ServiceSplit
