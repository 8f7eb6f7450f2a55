import ServiceSplit.SyntaxError
import ServiceSplit.Token.Stream
import ServiceSplit.Tree.Basic

/-!
# Cursors and parsers

A parser reads tokens from a cursor. It either gives a value or fails with one syntax error, and it
leaves a cursor behind in both cases, so that reading can go on behind an error.
-/

namespace ServiceSplit

/-- What is still to be read of a file. -/
structure Cursor where
  /-- The tokens to come. -/
  rest : List Token
  /-- The token that was read last. -/
  prev : Option Token := none
  /-- The comments that have not been passed yet. -/
  comments : List Comment := []
  /-- Whether a brace behind a type name opens a body and not a composite literal. -/
  bodyBrace : Bool := false
deriving Repr, Inhabited

namespace Cursor

/-- The kind of the next token. -/
def kind (c : Cursor) : TokenKind :=
  match c.rest with
  | t :: _ => t.kind
  | [] => .eof

/-- The kind of the token behind the next `n` ones. -/
def kindAt (c : Cursor) (n : Nat) : TokenKind :=
  match c.rest.drop n with
  | t :: _ => t.kind
  | [] => .eof

/-- The first byte of the next token. -/
def start (c : Cursor) : Nat :=
  match c.rest, c.prev with
  | t :: _, _ => t.start
  | [], some t => t.stop
  | [], none => 0

/-- The span of the token that was read last. -/
def prevSpan (c : Cursor) : Span :=
  match c.prev with
  | some t => t.span
  | none => .range 0 0

/-- The span of the next token, which an error is about. -/
def here (c : Cursor) : Span :=
  match c.rest with
  | t :: _ => t.span
  | [] => c.prevSpan

/-- The span from byte `start` up to the end of the token that was read last. -/
def spanFrom (c : Cursor) (start : Nat) : Span :=
  .range start (max c.prevSpan.stop start)

/-- The cursor behind the next token. -/
def advance (c : Cursor) : Cursor :=
  match c.rest with
  | t :: ts => { c with rest := ts, prev := some t }
  | [] => c

end Cursor

/-- A parser of values of type `α`. -/
abbrev Parser := EStateM SyntaxError Cursor

namespace Parser

variable {α : Type}

/-- Fails at the next token. -/
def fail (cause : SyntaxCause) : Parser α :=
  fun c => .error ⟨cause, c.here⟩ c

/-- Fails at a given place. -/
def failAt (cause : SyntaxCause) (span : Span) : Parser α :=
  throw ⟨cause, span⟩

/-- The kind of the next token. -/
def peek : Parser TokenKind :=
  return (← get).kind

/-- The kind of the token behind the next `n` ones. -/
def peekAt (n : Nat) : Parser TokenKind :=
  return (← get).kindAt n

/-- The first byte of the next token. -/
def position : Parser Nat :=
  return (← get).start

/-- The span of the token that was read last. -/
def prevSpan : Parser Span :=
  return (← get).prevSpan

/-- The span from byte `start` up to the end of the token that was read last. -/
def spanFrom (start : Nat) : Parser Span :=
  return (← get).spanFrom start

/-- Reads one token. -/
def advance : Parser Unit :=
  modify Cursor.advance

/-- Whether the next token is `kind`. -/
def check (kind : TokenKind) : Parser Bool :=
  return (← get).kind == kind

/-- Whether the text is over. -/
def atEnd : Parser Bool :=
  check .eof

/-- Reads the token `kind` if it comes next, and tells whether it did. -/
def accept (kind : TokenKind) : Parser Bool := do
  if ← check kind then
    advance
    return true
  else
    return false

/-- Reads the token `kind`, which has to come next. -/
def expect (kind : TokenKind) : Parser Unit := do
  let found ← peek
  if found == kind then advance else fail (.expectedToken kind found)

/-- Reads an identifier, which has to come next. -/
def expectIdent (cause : SyntaxCause) : Parser Ident := do
  match ← peek with
  | .ident name =>
    advance
    return ⟨name, ← prevSpan⟩
  | _ => fail cause

/-- Reads the end of a statement: a semicolon, unless a closing mark or the end of the text comes
next. -/
def expectTerminator : Parser Unit := do
  match ← peek with
  | .punct .semi => advance
  | .punct .rparen | .punct .rbrace | .eof => return
  | found => fail (.unexpectedAtEnd found)

/-- The cursor behind the semicolons that come next. -/
def skipSemis : Parser Unit :=
  modify fun c => go c c.rest
where
  /-- Advances once for every leading semicolon. -/
  go (c : Cursor) : List Token → Cursor
    | t :: ts => if t.kind == .punct .semi then go c.advance ts else c
    | [] => c

/-- Runs a parser with a reading of braces, and returns to the reading before in any case. -/
def withBodyBrace (flag : Bool) (p : Parser α) : Parser α := fun c =>
  match p { c with bodyBrace := flag } with
  | .ok a next => .ok a { next with bodyBrace := c.bodyBrace }
  | .error e next => .error e { next with bodyBrace := c.bodyBrace }

/-- Runs a parser where a brace behind a type name opens a body. -/
def withoutComposites (p : Parser α) : Parser α :=
  withBodyBrace true p

/-- Runs a parser where a brace behind a type name opens a composite literal. -/
def withComposites (p : Parser α) : Parser α :=
  withBodyBrace false p

end Parser

end ServiceSplit
