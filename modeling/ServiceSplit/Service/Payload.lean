import ServiceSplit.Launch
import ServiceSplit.Text.FreshName
import ServiceSplit.Text.Letter
import ServiceSplit.Text.UpperCase

/-!
# Payloads

How the arguments of a launch travel to a service.
-/

namespace ServiceSplit

/-- A parameter that a service keeps. -/
structure EntryParam where
  /-- The name. -/
  name : String
  /-- The type. -/
  ty : TypeExpr

/-- The parameters that the service of a function keeps, in order. -/
def Function.entryParams (f : Function) : List EntryParam :=
  (f.params.zipIdx.filter (!·.1.isChannel)).map fun (p, position) =>
    ⟨dataParamName p.name? position, p.ty⟩

/-- An argument in a structured request. -/
structure PayloadField where
  /-- The parameter, which is also the key. -/
  param : String
  /-- The name of the field in the service, which other packages can see. -/
  field : String
  /-- The type. -/
  ty : TypeExpr

/-- The form of the arguments in a request. -/
inductive Payload where
  /-- There are no arguments. -/
  | empty
  /-- The only argument is the raw body. -/
  | bytes
  /-- The only argument is a text. -/
  | text
  /-- All arguments are the fields of an object. -/
  | json (fields : List PayloadField)

namespace Payload

/-- A name that other packages can see: it starts with an upper-case letter. -/
def exported (name : String) : String :=
  match name.toList with
  | c :: cs =>
    if Text.isLetter c then String.ofList (Text.upperCase c ++ cs) else "P" ++ name
  | [] => "P"

/-- The fields of the parameters behind those of `before`; their names are different. -/
def fieldsFrom (before : List PayloadField) : List EntryParam → List PayloadField
  | [] => before
  | p :: ps =>
    let field := Text.freshName (exported p.name) (before.map PayloadField.field)
    fieldsFrom (before ++ [⟨p.name, field, p.ty⟩]) ps

/-- The form of the arguments for some parameters. -/
def ofParams : List EntryParam → Payload
  | [] => empty
  | [p] =>
    if p.ty.isByteSlice then bytes
    else if p.ty.isNamed "string" then text
    else json (fieldsFrom [] [p])
  | ps => json (fieldsFrom [] ps)

/-- The media type of a request. -/
def contentType : Payload → String
  | empty | bytes => "application/octet-stream"
  | text => "text/plain; charset=utf-8"
  | json _ => "application/json"

end Payload

end ServiceSplit
