import ServiceSplit.Service.Payload
import ServiceSplit.Template

/-!
# The entry of a service

The text around a launched function in its service: a handler that takes the arguments out of a
request and starts the function, and a `main` that serves the handler.
-/

namespace ServiceSplit

/-- The number of the network port that services listen on. -/
def servicePort : Nat :=
  8080

/-- The names in the entry of a service. -/
structure Entry where
  /-- The launched function. -/
  function : String
  /-- The handler of requests. -/
  handler : String
  /-- The type of structured requests. -/
  request : String

namespace Entry

/-- The declaration of the type of structured requests. -/
def requestType (entry : Entry) : Payload → Except Failure String
  | .json fields => do
    let lines ← fields.mapM fun f => do
      let ty ← Template.type entry.function f.ty
      return "\t" ++ f.field ++ " " ++ ty ++ " `json:\"" ++ f.param ++ "\"`"
    return Text.lines (["type " ++ entry.request ++ " struct \x7b"] ++ lines ++ ["\x7d", ""])
  | _ => .ok ""

/-- The statements that read the arguments. -/
def decoding (entry : Entry) : Payload → List String
  | .empty => []
  | .bytes | .text =>
    ["\tbody, err := io.ReadAll(r.Body)",
      "\tif err != nil \x7b",
      "\t\thttp.Error(w, \"could not read request body\", http.StatusBadRequest)",
      "\t\treturn",
      "\t\x7d"]
  | .json _ =>
    ["\tvar request " ++ entry.request,
      "\tif err := json.NewDecoder(r.Body).Decode(&request); err != nil \x7b",
      "\t\thttp.Error(w, \"could not decode request: \"+err.Error(), http.StatusBadRequest)",
      "\t\treturn",
      "\t\x7d"]

/-- The arguments of the function. -/
def arguments : Payload → String
  | .empty => ""
  | .bytes => "body"
  | .text => "string(body)"
  | .json fields => Text.joined ", " (fields.map ("request." ++ ·.field))

/-- The handler of requests. -/
def handlerText (entry : Entry) (payload : Payload) : String :=
  Text.lines <|
    ["func " ++ entry.handler ++ "(w http.ResponseWriter, r *http.Request) \x7b",
      "\tif r.Method != http.MethodPost \x7b",
      "\t\thttp.Error(w, \"only POST is supported\", http.StatusMethodNotAllowed)",
      "\t\treturn",
      "\t\x7d"] ++
    entry.decoding payload ++
    ["\tgo " ++ entry.function ++ "(" ++ arguments payload ++ ")",
      "\tw.WriteHeader(http.StatusAccepted)",
      "\x7d",
      ""]

/-- The function that serves the handler. -/
def mainText (entry : Entry) : String :=
  let portText := Text.decimal servicePort
  Text.lines
    ["func main() \x7b",
      "\thttp.HandleFunc(\"/\", " ++ entry.handler ++ ")",
      "\tlog.Printf(\"serving " ++ entry.function ++ " on :" ++ portText ++ "\")",
      "\tlog.Fatal(http.ListenAndServe(\":" ++ portText ++ "\", nil))",
      "\x7d"]

/-- The text around the launched function. -/
def text (entry : Entry) (payload : Payload) : Except Failure String := do
  let declared ← entry.requestType payload
  return declared ++ entry.handlerText payload ++ entry.mainText

end Entry

end ServiceSplit
