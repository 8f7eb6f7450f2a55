import ServiceSplit.Parser.Statements
import ServiceSplit.Text.Quoted

/-!
# Source files

Reading a whole source file. An error inside a declaration is noted and reading goes on at the next
function, type or import that starts a line, so that one run reports the errors of all declarations.

Comments are dropped except those with a meaning for the toolchain: build constraints above the
package clause, directives directly above a declaration, and the preamble directly above the import
of `"C"`.
-/

namespace ServiceSplit

open ServiceSplit.Parser

/-- The text of the line in front of byte `offset`. -/
def lineBefore (source : List Char) (offset : Nat) : List Char :=
  (Text.takeBytes offset source).reverse.takeWhile (· != '\n')

/-- Whether the comment stands alone in its line so far and nothing but one line end separates it
from byte `next`. -/
def Comment.touches (source : List Char) (c : Comment) (next : Nat) : Bool :=
  let gap := Text.slice source c.stop next
  (lineBefore source c.start).all Text.isBlank && gap.count '\n' ≤ 1 && gap.all Text.isBlank

/-- The comments of a run that ends directly above byte `next`; the comments to choose from and the
result are in reverse order. -/
def Comment.runAbove (source : List Char) (next : Nat) : List Comment → List Comment
  | [] => []
  | c :: cs => if c.touches source next then c :: runAbove source c.start cs else []

/-- The comments in front of byte `offset` that have not been passed yet. -/
def takeComments (offset : Nat) : Parser (List Comment) := fun c =>
  .ok (c.comments.takeWhile (·.stop ≤ offset))
    { c with comments := c.comments.dropWhile (·.stop ≤ offset) }

/-- The comments directly above the next token. Earlier ones are passed over. -/
def leadingGroup (source : List Char) : Parser (List Comment) := do
  let offset ← position
  let passed ← takeComments offset
  return (Comment.runAbove source offset passed.reverse).reverse

/-- The name given to an imported package. -/
def importAlias : Parser (Option String) := do
  match ← peek with
  | .ident name =>
    advance
    return some name
  | .punct .dot =>
    advance
    return some "."
  | _ => return none

/-- One import, with the comments directly above it. -/
def importSpec (doc : List Comment) : Parser ImportSpec := do
  let start ← position
  let given ← importAlias
  match ← peek with
  | .literal .string raw =>
    advance
    let path := Text.unquote raw
    let span ← spanFrom start
    if path.isEmpty then
      failAt .emptyImportPath span
    else
      return ⟨given, path, if path == "C" then doc.map Comment.text else [], span⟩
  | _ => fail .expectedImportPath

/-- The package clause. -/
def packageClause : Parser Ident := do
  skipSemis
  expect Keyword.kwPackage
  let name ← expectIdent .expectedPackageName
  expectTerminator
  return name

/-- Skips to the next function, type or import that starts a line. -/
def synchronize (c : Cursor) : Cursor :=
  go (if c.kind == .eof then c else c.advance) c.advance.rest
where
  /-- Advances over the tokens that start no declaration. -/
  go (c : Cursor) : List Token → Cursor
    | [] => c
    | t :: ts =>
      let behindSemi := c.prev.any (·.kind == .punct .semi)
      match t.kind with
      | .eof => c
      | .keyword .kwFunc | .keyword .kwType | .keyword .kwImport =>
        if behindSemi then c else go c.advance ts
      | _ => go c.advance ts

namespace Grammar

variable (G : Grammar)

/-- An import declaration. -/
def importDecl (source : List Char) : Parser (List ImportSpec) := do
  let doc ← leadingGroup source
  expect Keyword.kwImport
  let specs ←
    if ← accept Punct.lparen then do
      let specs ← lines G.bound Punct.rparen (do importSpec (← leadingGroup source))
      expect Punct.rparen
      pure specs
    else
      pure [← importSpec doc]
  expectTerminator
  return specs

/-- The receiver of a method. -/
def receiver : Parser Field := do
  let start ← position
  match ← G.parameters with
  | [field] =>
    if field.names.length ≤ 1 then return field
    else failAt .receiverCount (← spanFrom start)
  | _ => failAt .receiverCount (← spanFrom start)

/-- The type parameters of a function, which a method cannot have. -/
def funcTypeParams (isMethod : Bool) : Parser (List Field) := do
  if ← check Punct.lbracket then
    if isMethod then fail .genericMethod else G.typeParams
  else
    return []

/-- A function or method declaration. -/
def funcDecl : Parser FuncDecl := do
  let start ← position
  expect Keyword.kwFunc
  let recv ← if ← check Punct.lparen then some <$> G.receiver else pure .none
  let name ← expectIdent .expectedFunctionName
  let params ← G.funcTypeParams recv.isSome
  let sig ← G.signature
  let body ← if ← check Punct.lbrace then some <$> G.block else pure .none
  return ⟨recv, name, params, sig, body, [], ← spanFrom start⟩

/-- A top-level declaration. -/
def topDecl (source : List Char) : Parser Decl := do
  let doc ← leadingGroup source
  let directives := (doc.filter Comment.isDirective).map Comment.text
  let decl : Decl ←
    match ← peek with
    | .keyword .kwFunc => pure (.func { ← G.funcDecl with directives })
    | .keyword .kwVar => pure (.gen { ← G.genDecl .var with directives })
    | .keyword .kwConst => pure (.gen { ← G.genDecl .const with directives })
    | .keyword .kwType => pure (.gen { ← G.genDecl .type with directives })
    | _ => fail .expectedDeclaration
  expectTerminator
  return decl

end Grammar

/-- What has been read of a file. The lists are in reverse order. -/
structure Reading where
  /-- The imports. -/
  imports : List ImportSpec := []
  /-- The declarations. -/
  decls : List Decl := []
  /-- The errors. -/
  errors : List SyntaxError := []

namespace Reading

/-- Reads an import declaration. -/
def readImport (G : Grammar) (source : List Char) (c : Cursor) (r : Reading) :
    Cursor × Reading :=
  let r :=
    if r.decls.isEmpty then r else { r with errors := ⟨.lateImport, c.here⟩ :: r.errors }
  match G.importDecl source c with
  | .ok specs next => (next, { r with imports := specs.reverse ++ r.imports })
  | .error e next => (synchronize next, { r with errors := e :: r.errors })

/-- Reads a declaration. -/
def readDecl (G : Grammar) (source : List Char) (c : Cursor) (r : Reading) : Cursor × Reading :=
  match G.topDecl source c with
  | .ok d next => (next, { r with decls := d :: r.decls })
  | .error e next => (synchronize next, { r with errors := e :: r.errors })

/-- Reads imports and declarations up to the end of the text. -/
def read (G : Grammar) (source : List Char) : (bound : Nat) → Cursor → Reading → Reading
  | 0, c, r => { r with errors := ⟨.tooDeep, c.here⟩ :: r.errors }
  | n + 1, c, r =>
    match c.kind with
    | .eof => r
    | .punct .semi => read G source n c.advance r
    | .keyword .kwImport =>
      let (next, r) := readImport G source c r
      read G source n next r
    | _ =>
      let (next, r) := readDecl G source c r
      read G source n next r

end Reading

/-- The build constraints above the package clause, and the package name. -/
def fileHead : Parser (List String × Ident) := do
  skipSemis
  let above ← takeComments (← position)
  let package ← packageClause
  return ((above.filter Comment.isBuildConstraint).map Comment.text, package)

/-- The tree of a token list. -/
def parseTokens (source : List Char) (tokens : List Token) (comments : List Comment) :
    Except (List SyntaxError) File :=
  match fileHead { rest := tokens, comments } with
  | .error e _ => .error [e]
  | .ok (buildConstraints, package) c =>
    let bound := tokens.length + 1
    let r := Reading.read (.ofBound bound) source bound c {}
    if r.errors.isEmpty then
      .ok { buildConstraints, package, imports := r.imports.reverse, decls := r.decls.reverse }
    else
      .error r.errors.reverse

/-- The tree of a source text, or its syntax errors in the order found. -/
def parseFile (source : String) : Except (List SyntaxError) File := do
  let cs := source.toList
  let (tokens, comments) ← scan cs
  parseTokens cs tokens comments

end ServiceSplit
