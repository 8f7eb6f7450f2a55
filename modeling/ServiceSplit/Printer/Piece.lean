import ServiceSplit.SyntaxError

/-!
# Pieces of printed text

A tree is printed as a list of pieces, which are tokens and the layout between them. A tree that has
no text is refused with a cause.
-/

namespace ServiceSplit

/-- Reasons why a tree has no text. -/
inductive PrintError where
  | emptyImportPath
  | emptyIdentifier
  | emptyValueDeclaration
  | emptyTypeName
  | emptyUnion
  | emptyAssignment
  | emptyCaseList
  | emptyLiteral
  | emptyIndex
  /-- A labelled or empty statement stands where only simple statements can. -/
  | misplacedStatement
  /-- The operand of a `go` statement calls nothing. -/
  | goWithoutCall
  /-- The operand of a `defer` statement calls nothing. -/
  | deferWithoutCall
  /-- The branch behind `else` is neither a block nor an `if` statement. -/
  | badElseBranch
  | missingMaxIndex
  /-- A call without arguments spreads the last one. -/
  | spreadWithoutArguments
  /-- Program text that was put together from parts does not parse. -/
  | generated (cause : SyntaxCause) (text : String)
deriving DecidableEq, Repr, Inhabited

/-- The text of a printing error. -/
def PrintError.message : PrintError → String
  | emptyImportPath => "cannot print an empty import path"
  | emptyIdentifier => "cannot print an empty identifier"
  | emptyValueDeclaration => "cannot print an empty value declaration"
  | emptyTypeName => "cannot print an empty type name"
  | emptyUnion => "cannot print an empty type union"
  | emptyAssignment => "cannot print an empty assignment"
  | emptyCaseList => "cannot print an empty case list"
  | emptyLiteral => "cannot print an empty literal"
  | emptyIndex => "cannot print an empty index expression"
  | misplacedStatement =>
    "cannot print statement: label or empty statement in expression position"
  | goWithoutCall => "cannot print go statement: operand is not a function call"
  | deferWithoutCall => "cannot print defer statement: operand is not a function call"
  | badElseBranch => "cannot print else branch: expected if statement or block"
  | missingMaxIndex => "cannot print slice expression: missing max index"
  | spreadWithoutArguments => "cannot print call: '...' without arguments"
  | generated cause text =>
    "cannot print generated code: " ++ cause.message ++ " in:\n" ++ text

/-- A piece of printed text. -/
inductive Piece where
  /-- A token. -/
  | token (kind : TokenKind)
  /-- White space, or a comment with its line end. -/
  | layout (text : String)
deriving DecidableEq, Repr, Inhabited

namespace Piece

/-- An operator or delimiter. -/
def mark (p : Punct) : Piece :=
  token (.punct p)

/-- A reserved word. -/
def word (k : Keyword) : Piece :=
  token (.keyword k)

/-- A name. -/
def ident (name : String) : Piece :=
  token (.ident name)

/-- The text of a piece. -/
def text : Piece → String
  | token kind => kind.text
  | layout s => s

/-- The text of a list of pieces. -/
def textOf (pieces : List Piece) : String :=
  String.join (pieces.map text)

/-- The first character of the text of a list of pieces. -/
def firstChar? (pieces : List Piece) : Option Char :=
  pieces.findSome? fun p => p.text.toList.head?

/-- One blank. -/
def blank : Piece :=
  layout " "

/-- A line end. -/
def newline : Piece :=
  layout "\n"

/-- The indentation of a line. -/
def tabs (depth : Nat) : Piece :=
  layout (String.ofList (List.replicate depth '\t'))

/-- A line of its own, such as a comment. -/
def line (s : String) : Piece :=
  layout (s ++ "\n")

/-- A line with an indentation. -/
def indented (depth : Nat) (pieces : List Piece) : List Piece :=
  tabs depth :: pieces ++ [newline]

/-- Lists of pieces with a comma between them. -/
def commas (items : List (List Piece)) : List Piece :=
  List.flatten (items.intersperse [mark .comma, blank])

/-- Pieces in parentheses. -/
def parens (pieces : List Piece) : List Piece :=
  mark .lparen :: pieces ++ [mark .rparen]

/-- Pieces in parentheses if `b` says so. -/
def parensIf (b : Bool) (pieces : List Piece) : List Piece :=
  if b then parens pieces else pieces

/-- Pieces in brackets. -/
def brackets (pieces : List Piece) : List Piece :=
  mark .lbracket :: pieces ++ [mark .rbracket]

/-- Lines in braces; the closing brace is indented by `depth`. -/
def braces (depth : Nat) (lines : List (List Piece)) : List Piece :=
  mark .lbrace :: newline :: lines.flatten ++ [tabs depth, mark .rbrace]

end Piece

/-- The pieces of a tree, or the reason why it has no text. -/
abbrev Printed := Except PrintError (List Piece)

/-- The pieces of several trees. -/
abbrev PrintedList := Except PrintError (List (List Piece))

/-- The text of printed pieces. -/
def Printed.text (printed : Printed) : Except PrintError String :=
  Piece.textOf <$> printed

end ServiceSplit
