import ServiceSplit.Span

/-!
# Tokens

The words, literals and marks of a source text. A literal keeps its text as it was written, so that
it can be written again.
-/

namespace ServiceSplit

/-- The reserved words. -/
inductive Keyword where
  | kwBreak | kwCase | kwChan | kwConst | kwContinue | kwDefault | kwDefer | kwElse
  | kwFallthrough | kwFor | kwFunc | kwGo | kwGoto | kwIf | kwImport | kwInterface | kwMap
  | kwPackage | kwRange | kwReturn | kwSelect | kwStruct | kwSwitch | kwType | kwVar
deriving DecidableEq, Repr, Inhabited

namespace Keyword

/-- All reserved words. -/
def all : List Keyword :=
  [kwBreak, kwCase, kwChan, kwConst, kwContinue, kwDefault, kwDefer, kwElse, kwFallthrough, kwFor,
   kwFunc, kwGo, kwGoto, kwIf, kwImport, kwInterface, kwMap, kwPackage, kwRange, kwReturn,
   kwSelect, kwStruct, kwSwitch, kwType, kwVar]

/-- The spelling of a reserved word. -/
def text : Keyword → String
  | kwBreak => "break"
  | kwCase => "case"
  | kwChan => "chan"
  | kwConst => "const"
  | kwContinue => "continue"
  | kwDefault => "default"
  | kwDefer => "defer"
  | kwElse => "else"
  | kwFallthrough => "fallthrough"
  | kwFor => "for"
  | kwFunc => "func"
  | kwGo => "go"
  | kwGoto => "goto"
  | kwIf => "if"
  | kwImport => "import"
  | kwInterface => "interface"
  | kwMap => "map"
  | kwPackage => "package"
  | kwRange => "range"
  | kwReturn => "return"
  | kwSelect => "select"
  | kwStruct => "struct"
  | kwSwitch => "switch"
  | kwType => "type"
  | kwVar => "var"

/-- The reserved word that is spelled `word`. -/
def ofText? (word : String) : Option Keyword :=
  all.find? fun k => k.text == word

end Keyword

/-- Operators and delimiters. -/
inductive Punct where
  | plus | minus | star | slash | percent | ampersand | pipe | caret | shl | shr | andNot
  | plusEq | minusEq | starEq | slashEq | percentEq | ampersandEq | pipeEq | caretEq
  | shlEq | shrEq | andNotEq
  | andAnd | orOr | arrow | plusPlus | minusMinus
  | eqEq | lt | gt | eq | bang | tilde | bangEq | ltEq | gtEq | colonEq | ellipsis
  | lparen | rparen | lbracket | rbracket | lbrace | rbrace | comma | dot | semi | colon
deriving DecidableEq, Repr, Inhabited

namespace Punct

/-- The spelling of an operator or delimiter. -/
def text : Punct → String
  | plus => "+"
  | minus => "-"
  | star => "*"
  | slash => "/"
  | percent => "%"
  | ampersand => "&"
  | pipe => "|"
  | caret => "^"
  | shl => "<<"
  | shr => ">>"
  | andNot => "&^"
  | plusEq => "+="
  | minusEq => "-="
  | starEq => "*="
  | slashEq => "/="
  | percentEq => "%="
  | ampersandEq => "&="
  | pipeEq => "|="
  | caretEq => "^="
  | shlEq => "<<="
  | shrEq => ">>="
  | andNotEq => "&^="
  | andAnd => "&&"
  | orOr => "||"
  | arrow => "<-"
  | plusPlus => "++"
  | minusMinus => "--"
  | eqEq => "=="
  | lt => "<"
  | gt => ">"
  | eq => "="
  | bang => "!"
  | tilde => "~"
  | bangEq => "!="
  | ltEq => "<="
  | gtEq => ">="
  | colonEq => ":="
  | ellipsis => "..."
  | lparen => "("
  | rparen => ")"
  | lbracket => "["
  | rbracket => "]"
  | lbrace => "\x7b"
  | rbrace => "\x7d"
  | comma => ","
  | dot => "."
  | semi => ";"
  | colon => ":"

/-- Every operator and delimiter, a longer spelling before the shorter ones it starts with. -/
def longestFirst : List Punct :=
  [shlEq, shrEq, andNotEq, ellipsis, andAnd, orOr, arrow, plusPlus, minusMinus, eqEq, bangEq, ltEq,
   gtEq, colonEq, plusEq, minusEq, starEq, slashEq, percentEq, ampersandEq, pipeEq, caretEq, shl,
   shr, andNot, plus, minus, star, slash, percent, ampersand, pipe, caret, lt, gt, eq, bang, tilde,
   lparen, rparen, lbracket, rbracket, lbrace, rbrace, comma, dot, semi, colon]

end Punct

/-- The kinds of literals. -/
inductive LitKind where
  | int | float | imag | char | string
deriving DecidableEq, Repr, Inhabited

/-- What a token is. -/
inductive TokenKind where
  /-- A word that is not reserved. -/
  | ident (name : String)
  /-- A literal with its text, quotes included. -/
  | literal (kind : LitKind) (raw : String)
  /-- A reserved word. -/
  | keyword (word : Keyword)
  /-- An operator or delimiter. -/
  | punct (mark : Punct)
  /-- The end of the source text. -/
  | eof
deriving DecidableEq, Repr, Inhabited

namespace TokenKind

instance : Coe Keyword TokenKind := ⟨keyword⟩

instance : Coe Punct TokenKind := ⟨punct⟩

/-- The spelling of a token. -/
def text : TokenKind → String
  | ident name => name
  | literal _ raw => raw
  | keyword word => word.text
  | punct mark => mark.text
  | eof => "EOF"

/-- The name of a token in messages. -/
def describe : TokenKind → String
  | ident name => "identifier `" ++ name ++ "`"
  | literal _ raw => "literal " ++ raw
  | punct .semi => "';' or newline"
  | eof => "end of file"
  | keyword word => "`" ++ word.text ++ "`"
  | punct mark => "`" ++ mark.text ++ "`"

/-- Whether a newline behind the token ends the statement. -/
def endsStatement : TokenKind → Bool
  | ident _ | literal .. => true
  | keyword .kwBreak | keyword .kwContinue | keyword .kwFallthrough | keyword .kwReturn => true
  | punct .plusPlus | punct .minusMinus => true
  | punct .rparen | punct .rbracket | punct .rbrace => true
  | _ => false

/-- The kind of the token that the word `word` is. -/
def ofWord (word : String) : TokenKind :=
  match Keyword.ofText? word with
  | some k => keyword k
  | none => ident word

/-- Whether the token is an identifier. -/
def isIdent : TokenKind → Bool
  | ident _ => true
  | _ => false

end TokenKind

/-- A token: its kind and the bytes it was read from. -/
structure Token where
  /-- What the token is. -/
  kind : TokenKind
  /-- The first byte. -/
  start : Nat
  /-- The end of the last byte. -/
  stop : Nat
deriving DecidableEq, Repr, Inhabited

/-- The span of a token. -/
def Token.span (t : Token) : Span :=
  .range t.start t.stop

/-- A comment, without the white space at its end. -/
structure Comment where
  /-- The text with its delimiters. -/
  text : String
  /-- The first byte. -/
  start : Nat
  /-- The end of the last byte, white space included. -/
  stop : Nat
deriving DecidableEq, Repr, Inhabited

end ServiceSplit
