import ServiceSplit.Printer.Tree

/-!
# Printing files

The text of a file: build constraints, the package clause, imports and declarations with a blank
line between them. Imports with a preamble stand alone behind the others.
-/

namespace ServiceSplit

open Piece

/-- The pieces of an import behind the word `import`. -/
def ImportSpec.print (spec : ImportSpec) : Printed :=
  if spec.path.isEmpty then
    throw .emptyImportPath
  else
    let path := token (.literal .string ("\"" ++ spec.path ++ "\""))
    match spec.alias? with
    | some a => return [if a = "." then mark .dot else ident a, blank, path]
    | none => return [path]

/-- The pieces of a function or method declaration. -/
def FuncDecl.print (f : FuncDecl) : Printed := do
  let recv ← match f.recv with
    | some field => do pure (parens (← printField 0 field) ++ [blank])
    | none => pure []
  let name ← f.name.print
  let params ← printFields 0 f.typeParams
  let sig ← printSignature 0 f.sig
  let body ← match f.body with
    | some b => do pure (blank :: (← printBlock 0 b))
    | none => pure []
  return word .kwFunc :: blank :: recv ++ name ++ layOutTypeParams params ++ sig ++ body

/-- The pieces of a declaration, with the directives above it and blank lines around it. -/
def Decl.print : Decl → Printed
  | func f => do
    return newline :: f.directives.map line ++ (← f.print) ++ [newline]
  | gen g => do
    return newline :: g.directives.map line ++ (← printGenDecl 0 g) ++ [newline]

/-- The pieces of the imports without a preamble. -/
def layOutImports : List (List Piece) → List Piece
  | [] => []
  | [single] => newline :: word .kwImport :: blank :: single ++ [newline]
  | specs =>
    [newline, word .kwImport, blank, mark .lparen, newline] ++
      (specs.map (indented 1)).flatten ++ [mark .rparen, newline]

/-- The pieces of an import with a preamble. -/
def ImportSpec.printWithPreamble (spec : ImportSpec) : Printed := do
  return newline :: spec.preamble.map line ++ word .kwImport :: blank :: (← spec.print) ++ [newline]

/-- The pieces of a file. -/
def File.print (file : File) : Printed := do
  let constraints := file.buildConstraints.map line
  let top := if constraints.isEmpty then [] else constraints ++ [newline]
  let package ← file.package.print
  let plain ← (file.imports.filter (·.preamble.isEmpty)).mapM ImportSpec.print
  let special ← (file.imports.filter (!·.preamble.isEmpty)).mapM ImportSpec.printWithPreamble
  let decls ← file.decls.mapM Decl.print
  return top ++ word .kwPackage :: blank :: package ++ newline :: layOutImports plain ++
    special.flatten ++ decls.flatten

/-- The text of a file. -/
def File.render (file : File) : Except PrintError String :=
  file.print.text

end ServiceSplit
