import ServiceSplit.Failure
import ServiceSplit.Parser.File
import ServiceSplit.Printer.File

/-!
# Program text from parts

Generated program parts are written as text and read back as trees, so that they can be put into a
program and printed like the rest of it.
-/

namespace ServiceSplit.Template

/-- The declarations that `text` is, for an artifact. -/
def decls (artifact text : String) : Except Failure (List Decl) :=
  match parseFile ("package main\n\n" ++ text ++ "\n") with
  | .ok file => .ok file.decls
  | .error (e :: _) => .error (.unprintable artifact (.generated e.cause text))
  | .error [] => .error (.unprintable artifact (.generated .expectedDeclaration text))

/-- The statements that `text` is inside the body of a function, for an artifact. -/
def stmts (artifact text : String) : Except Failure (List Stmt) := do
  match ← decls artifact ("func _() \x7b\n" ++ text ++ "\n\x7d") with
  | .func f :: _ => return (f.body.map Block.stmts).getD []
  | _ => throw (.unprintable artifact (.generated .expectedDeclaration text))

/-- The text of an expression, for an artifact. -/
def expr (artifact : String) (e : Expr) : Except Failure String :=
  e.render.mapError (.unprintable artifact)

/-- The text of a type, for an artifact. -/
def type (artifact : String) (t : TypeExpr) : Except Failure String :=
  t.render.mapError (.unprintable artifact)

end ServiceSplit.Template
