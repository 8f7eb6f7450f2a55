import ServiceSplit.Launch
import ServiceSplit.Service.Basic

/-!
# Dispatches

The request to a service that stands where a launch stood.
-/

namespace ServiceSplit

namespace Launch

/-- The entries of a structured request. -/
def jsonEntries (l : Launch) (fields : List PayloadField) : Except Failure (List String) :=
  (fields.zip l.data).mapM fun (field, arg) => do
    let value ← Template.expr l.callee arg.arg
    return Text.quote field.param ++ ": " ++ value

/-- The reader of the only argument. -/
def bodyReader (l : Launch) (package : String) : Except Failure String :=
  match l.data with
  | arg :: _ => do
    let value ← Template.expr l.callee arg.arg
    return package ++ ".NewReader(" ++ value ++ ")"
  | [] => .ok "http.NoBody"

/-- The call that sends an unstructured request. -/
def plainCall (l : Launch) (payload : Payload) (reader : String) : String :=
  "kompileDispatch(" ++ Text.quote l.callee ++ ", " ++ Text.quote payload.contentType ++ ", " ++
    reader ++ ")"

/-- The call that sends the arguments of a launch. -/
def dispatchCall (l : Launch) (payload : Payload) : Except Failure String :=
  match payload with
  | .json fields => do
    let entries ← l.jsonEntries fields
    return "kompileDispatchJSON(" ++ Text.quote l.callee ++ ", map[string]any\x7b" ++
      Text.joined ", " entries ++ "\x7d)"
  | .bytes => l.plainCall payload <$> l.bodyReader "bytes"
  | .text => l.plainCall payload <$> l.bodyReader "strings"
  | .empty => .ok (l.plainCall payload "http.NoBody")

/-- What happens if a request cannot be sent. A function with results cannot simply return. -/
def onFailure (l : Launch) (hasResults : Bool) : String :=
  if hasResults then "\tpanic(err)"
  else
    "\tlog.Printf(" ++ Text.quote ("kompile: dispatch to " ++ l.callee ++ " failed: %v") ++
      ", err)\n\treturn"

/-- The statements for a launch in a function with or without results. -/
def dispatch (l : Launch) (services : List Service) (hasResults : Bool) :
    Except Failure (List Stmt) :=
  match services.find? (·.name == l.callee) with
  | none => .error (.step .build l.callee .noService)
  | some service => do
    let call ← l.dispatchCall service.payload
    Template.stmts l.callee
      ("if err := " ++ call ++ "; err != nil \x7b\n" ++ l.onFailure hasResults ++ "\n\x7d")

end Launch

end ServiceSplit
