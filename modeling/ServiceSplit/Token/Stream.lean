import ServiceSplit.Token.Lexeme

/-!
# Token streams

The tokens and comments of a source text with their byte positions. A newline behind a token that
can end a statement adds a semicolon of no bytes, and so does the end of the text; the newline may
be inside a block comment.
-/

namespace ServiceSplit

/-- Lines that the toolchain reads: `//go:` and `//export`. -/
def Comment.isDirective (c : Comment) : Bool :=
  Text.startsWith c.text "//go:" || Text.startsWith c.text "//export "

/-- Lines that restrict the builds a file belongs to. -/
def Comment.isBuildConstraint (c : Comment) : Bool :=
  Text.startsWith c.text "//go:build" || Text.startsWith c.text "// +build"

/-- What has been read of a source text so far. The lists are in reverse order. -/
structure Scan where
  /-- The number of bytes read. -/
  offset : Nat := 0
  /-- The tokens, inserted semicolons included. -/
  tokens : List Token := []
  /-- The comments. -/
  comments : List Comment := []
  /-- The lexical errors. -/
  errors : List SyntaxError := []
deriving Repr, Inhabited

namespace Scan

/-- Adds a token that ends at byte `stop`. -/
def push (s : Scan) (kind : TokenKind) (stop : Nat) : Scan :=
  { s with tokens := ⟨kind, s.offset, stop⟩ :: s.tokens }

/-- Ends the line: adds a semicolon if the last token ends a statement. -/
def endLine (s : Scan) : Scan :=
  match s.tokens with
  | t :: _ => if t.kind.endsStatement then s.push Punct.semi s.offset else s
  | [] => s

/-- Reads one lexeme. -/
def add (s : Scan) (lexeme : Lexeme) : Scan :=
  let text := lexeme.text
  let stop := s.offset + Text.byteSize text
  match lexeme with
  | .newline => { s.endLine with offset := stop }
  | .blank _ => { s with offset := stop }
  | .comment _ =>
    let comment : Comment := ⟨String.ofList (Text.trimEnd text), s.offset, stop⟩
    let next := { s with offset := stop, comments := comment :: s.comments }
    if text.take 2 == ['/', '*'] && text.contains '\n' then next.endLine else next
  | .token kind => { s.push kind stop with offset := stop }
  | .fault cause _ =>
    { s with offset := stop, errors := ⟨cause, .range s.offset stop⟩ :: s.errors }

/-- Ends the text: the last line ends, and the end of file follows. -/
def finish (s : Scan) : Scan :=
  s.endLine.push .eof s.offset

end Scan

/-- The tokens and comments of a source text, in order, or all its lexical errors. -/
def scan (source : List Char) : Except (List SyntaxError) (List Token × List Comment) :=
  let s := ((lexemes source).foldl Scan.add {}).finish
  if s.errors.isEmpty then .ok (s.tokens.reverse, s.comments.reverse)
  else .error s.errors.reverse

end ServiceSplit
