import ServiceSplit.Parser.Grammar

/-!
# Types and signatures

Parsers of types, parameter lists and type parameters.

A parameter list names all its parameters or none. Its entries are read first, an identifier alone
being a name or a type, and grouped when the list is over.
-/

namespace ServiceSplit

open ServiceSplit.Parser

/-- One entry of a parameter list. -/
inductive ParamEntry where
  /-- An identifier alone, which is a name or a type. -/
  | bare (id : Ident)
  /-- A name and its type. -/
  | named (id : Ident) (ty : TypeExpr)
  /-- A type that is more than an identifier. -/
  | typed (ty : TypeExpr) (span : Span)

namespace ParamEntry

/-- Whether the entry has both a name and a type. -/
def isNamed : ParamEntry → Bool
  | named .. => true
  | _ => false

/-- The field of an entry in a list without names. -/
def field : ParamEntry → Field
  | bare id => ⟨[], .named id.name, .none, id.span⟩
  | typed ty span => ⟨[], ty, .none, span⟩
  | named id ty => ⟨[id], ty, .none, id.span⟩

/-- The fields of a list with names; `pending` are names whose type is still to come. -/
def groupNamed (pending : List Ident) : List ParamEntry → Except SyntaxError (List Field)
  | [] =>
    match pending.getLast? with
    | some last => .error ⟨.missingParamType, last.span⟩
    | .none => .ok []
  | bare id :: entries => groupNamed (pending ++ [id]) entries
  | named id ty :: entries => do
    let first := (pending.head?.map Ident.span).getD id.span
    let fields ← groupNamed [] entries
    return ⟨pending ++ [id], ty, .none, first.union id.span⟩ :: fields
  | typed _ span :: _ => .error ⟨.mixedParams, span⟩

/-- The fields of a parameter list. -/
def group (entries : List ParamEntry) : Except SyntaxError (List Field) :=
  if entries.any isNamed then groupNamed [] entries else .ok (entries.map field)

/-- Whether the bracket that is open in front of the tokens closes before a comma or a closing
parenthesis, as in a type with arguments, and not before an element type. `depth` counts the open
brackets. -/
def bracketCloses (depth : Nat) : List Token → Bool
  | [] => false
  | t :: ts =>
    match t.kind with
    | .punct .lbracket => bracketCloses (depth + 1) ts
    | .punct .rbracket =>
      if depth ≤ 1 then
        match ts with
        | next :: _ => next.kind == .punct .comma || next.kind == .punct .rparen
        | [] => false
      else
        bracketCloses (depth - 1) ts
    | .eof => false
    | _ => bracketCloses depth ts

/-- How an entry that starts with an identifier goes on. -/
inductive Shape where
  | bare | named | typed
deriving DecidableEq, Repr

/-- The shape of an entry that starts with an identifier, by the tokens behind it. -/
def shape (behind : List Token) : Shape :=
  match behind with
  | [] => .named
  | t :: ts =>
    match t.kind with
    | .punct .comma | .punct .rparen => .bare
    | .punct .dot => .typed
    | .punct .lbracket => if bracketCloses 1 ts then .typed else .named
    | _ => .named

end ParamEntry

/-- Whether a type can start with the token. -/
def TokenKind.startsType : TokenKind → Bool
  | ident _ => true
  | punct .star | punct .lbracket | punct .arrow | punct .lparen => true
  | keyword .kwMap | keyword .kwChan | keyword .kwFunc | keyword .kwStruct
  | keyword .kwInterface => true
  | _ => false

/-- Whether the second token of a bracket behind a declared type name makes it a list of type
parameters. -/
def TokenKind.continuesTypeParam : TokenKind → Bool
  | ident _ => true
  | punct .comma | punct .tilde | punct .star | punct .lbracket => true
  | keyword .kwInterface | keyword .kwMap | keyword .kwChan | keyword .kwFunc
  | keyword .kwStruct => true
  | _ => false

namespace Grammar

variable (G : Grammar)

/-- Names with commas between them. -/
def names (first next : SyntaxCause) : Parser (List Ident) := do
  let id ← expectIdent first
  return id :: (← following Punct.comma (expectIdent next) G.bound)

/-- A type at a known place. -/
def typedEntry (start : Nat) : Parser ParamEntry := do
  let ty ← G.type
  return .typed ty (← spanFrom start)

/-- One entry of a parameter list. -/
def paramEntry : Parser ParamEntry := do
  let start ← position
  let c ← get
  if c.kind.isIdent then
    match ParamEntry.shape (c.rest.drop 1) with
    | .bare => return .bare (← expectIdent .expectedName)
    | .typed => G.typedEntry start
    | .named =>
      let id ← expectIdent .expectedName
      return .named id (← G.type)
  else
    G.typedEntry start

/-- A parameter list in parentheses. -/
def parameters : Parser (List Field) := do
  expect Punct.lparen
  let entries ← commaList Punct.rparen G.paramEntry G.bound
  expect Punct.rparen
  match ParamEntry.group entries with
  | .ok fields => return fields
  | .error e => throw e

/-- Parameters and results of a function. -/
def signature : Parser Signature := do
  let params ← G.parameters
  let next ← peek
  if next == .punct .lparen then
    return ⟨params, ← G.parameters⟩
  else if next.startsType then
    return ⟨params, [.unnamed (← G.type)]⟩
  else
    return ⟨params, []⟩

/-- One term of a union. -/
def unionTerm : Parser UnionTerm := do
  let tilde ← accept Punct.tilde
  return ⟨tilde, ← G.type⟩

/-- A constraint: a type, or a union of types. -/
def constraint : Parser TypeExpr := do
  match ← separated G.bound Punct.pipe G.unionTerm with
  | [⟨false, ty⟩] => return ty
  | terms => return .union terms

/-- One group of type parameters. -/
def typeParam : Parser Field := do
  let start ← position
  let ids ← G.names .expectedTypeParam .expectedTypeParam
  let ty ← G.constraint
  return ⟨ids, ty, .none, ← spanFrom start⟩

/-- Type parameters in brackets. -/
def typeParams : Parser (List Field) := do
  expect Punct.lbracket
  let fields ← commaList Punct.rbracket G.typeParam G.bound
  expect Punct.rbracket
  if fields.isEmpty then fail .emptyTypeParams else return fields

/-- Type arguments in brackets. -/
def typeArgs : Parser (List TypeExpr) := do
  expect Punct.lbracket
  let args ← commaList Punct.rbracket G.type G.bound
  expect Punct.rbracket
  return args

/-- Whether a struct field that starts with these two tokens is embedded. -/
def embeds : TokenKind → TokenKind → Bool
  | .punct .star, _ => true
  | .ident _, .punct .dot | .ident _, .punct .semi | .ident _, .punct .rbrace => true
  | .ident _, .literal .string _ => true
  | _, _ => false

/-- The tag of a struct field. -/
def fieldTag : Parser (Option String) := do
  match ← peek with
  | .literal .string raw =>
    advance
    return some raw
  | _ => return .none

/-- One line of a struct type. -/
def structField : Parser Field := do
  let start ← position
  let ids ←
    if embeds (← peek) (← peekAt 1) then pure []
    else G.names .expectedFieldName .expectedFieldNameAfterComma
  let ty ← G.type
  let tag ← fieldTag
  return ⟨ids, ty, tag, ← spanFrom start⟩

/-- One line of an interface type. -/
def interfaceElem : Parser InterfaceElem := do
  if (← peek).isIdent && (← peekAt 1) == .punct .lparen then
    let name ← expectIdent .expectedName
    return .method name (← G.signature)
  else
    return .embedded (← G.constraint)

/-- Lines in braces. -/
def braced {α : Type} (item : Parser α) : Parser (List α) := do
  expect Punct.lbrace
  let found ← lines G.bound Punct.rbrace item
  expect Punct.rbrace
  return found

/-- The type that starts with the name `first`. -/
def namedType (first : String) : Parser TypeExpr := do
  let (pkg, name) ←
    if ← accept Punct.dot then
      pure (some first, (← expectIdent .expectedTypeNameAfterDot).name)
    else
      pure (.none, first)
  if (← check Punct.lbracket) && (← peekAt 1) != .punct .rbracket then
    return .name pkg name (← G.typeArgs)
  else
    return .name pkg name []

/-- The type behind an opening bracket: a slice or an array. -/
def bracketType : Parser TypeExpr := do
  if ← accept Punct.rbracket then
    return .slice (← G.type)
  else
    let len ←
      if ← accept Punct.ellipsis then pure .none
      else some <$> withComposites G.expr
    expect Punct.rbracket
    return .array len (← G.type)

/-- A type. -/
def typeExpr : Parser TypeExpr := do
  match ← peek with
  | .ident first =>
    advance
    G.namedType first
  | .punct .star =>
    advance
    return .pointer (← G.type)
  | .punct .lbracket =>
    advance
    G.bracketType
  | .keyword .kwMap =>
    advance
    expect Punct.lbracket
    let key ← G.type
    expect Punct.rbracket
    return .map key (← G.type)
  | .keyword .kwChan =>
    advance
    let dir := if ← accept Punct.arrow then .send else .both
    return .chan dir (← G.type)
  | .punct .arrow =>
    advance
    expect Keyword.kwChan
    return .chan .recv (← G.type)
  | .keyword .kwFunc =>
    advance
    return .func (← G.signature)
  | .keyword .kwStruct =>
    advance
    return .struct (← G.braced G.structField)
  | .keyword .kwInterface =>
    advance
    return .interface (← G.braced G.interfaceElem)
  | .punct .ellipsis =>
    advance
    return .ellipsis (← G.type)
  | .punct .lparen =>
    advance
    let inner ← G.type
    expect Punct.rparen
    return .paren inner
  | _ => fail .expectedType

end Grammar

end ServiceSplit
