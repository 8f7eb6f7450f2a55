import ServiceSplit.Failure

/-!
# Diagnostics

What is shown of a failure: marked places in the program where the failure has one, and plain text
otherwise.
-/

namespace ServiceSplit

/-- A message at a marked place. -/
structure Diagnostic where
  /-- The message. -/
  message : String
  /-- The kind of problem. -/
  code : Option String
  /-- Advice. -/
  help : Option String
  /-- The text at the marked place. -/
  label : String
  /-- The first marked byte. -/
  offset : Nat
  /-- The number of marked bytes. -/
  length : Nat
deriving DecidableEq, Repr, Inhabited

/-- The code of problems in an otherwise correct program. -/
def Diagnostic.transformCode : String :=
  "kompile::transform"

/-- The diagnostic of a syntax error. -/
def SyntaxError.diagnostic (e : SyntaxError) : Diagnostic :=
  ⟨e.message, none, e.help, e.label, e.span.start, e.span.length⟩

/-- The diagnostic of a failure with a place in the program. -/
def Failure.diagnostic? (f : Failure) : Option Diagnostic :=
  match f.span? with
  | some (.range start stop) =>
    some ⟨f.message, some Diagnostic.transformCode, f.help, f.label, start, stop - start⟩
  | _ => none

/-- What is shown of a failure. -/
inductive Report where
  /-- Marked places in the program. -/
  | marked (diagnostics : List Diagnostic)
  /-- Plain text: the failure and what is behind it. -/
  | plain (message : String) (causes : List String)
deriving DecidableEq, Repr, Inhabited

/-- The report on a failure; places can be marked if the program is at hand. -/
def Failure.report (f : Failure) (programLoaded : Bool) : Report :=
  match f with
  | badSyntax _ errors => .marked (errors.map SyntaxError.diagnostic)
  | _ =>
    match f.diagnostic? with
    | some d => if programLoaded then .marked [d] else .plain f.message f.causes
    | none => .plain f.message f.causes

/-- The lines of a plain report. -/
def Report.plainText (message : String) (causes : List String) : String :=
  "error: " ++ message ++ "\n" ++ String.join (causes.map fun c => "  caused by: " ++ c ++ "\n")

end ServiceSplit
