import ServiceSplit.Printer.Piece
import ServiceSplit.Printer.Spacing

/-!
# Printing types, expressions and statements

The pieces of the parts of a tree, in the standard layout: a tab for every level, one statement on a
line, blanks around operators by depth. Parentheses are added where a tree needs them and doubled
ones are dropped.
-/

namespace ServiceSplit

open Piece

/-- Where a statement stands: on a line of its own, or inside the header of another one. -/
inductive Place where
  | line | header
deriving DecidableEq, Repr

/-- The pieces of a statement with the layout of its place. -/
def Place.wrap (place : Place) (indent : Nat) (pieces : List Piece) : List Piece :=
  match place with
  | line => indented indent pieces
  | header => pieces

/-- The pieces of an identifier. -/
def Ident.print (id : Ident) : Printed :=
  if id.name.isEmpty then throw .emptyIdentifier else return [ident id.name]

/-- The pieces of several identifiers. -/
def Ident.printAll (ids : List Ident) : Printed :=
  commas <$> ids.mapM Ident.print

/-- The pieces in front of the element type of a channel type. -/
def ChanDir.print : ChanDir → List Piece
  | both => [word .kwChan, blank]
  | send => [word .kwChan, mark .arrow, blank]
  | recv => [mark .arrow, word .kwChan, blank]

/-- Whether the element type of a channel type needs parentheses. -/
def ChanDir.parensAround : ChanDir → TypeExpr → Bool
  | both, .chan .recv _ => true
  | _, _ => false

/-- Whether the results of a signature are written without parentheses. -/
def Signature.bareResult : List Field → Bool
  | [⟨[], .func _, _, _⟩] => false
  | [⟨[], _, _, _⟩] => true
  | _ => false

/-- The results of a signature behind the parameters. -/
def Signature.layOutResults (bare : Bool) (results : List (List Piece)) : List Piece :=
  if results.isEmpty then [] else blank :: parensIf (!bare) (commas results)

/-- Lines in braces behind a keyword; the braces stand side by side if there are no lines. -/
def layOutBraces (keyword : Keyword) (indent : Nat) (lines : List (List Piece)) : List Piece :=
  if lines.isEmpty then [Piece.word keyword, mark .lbrace, mark .rbrace]
  else Piece.word keyword :: blank :: braces indent (lines.map (indented (indent + 1)))

/-- The terms of a union. -/
def layOutUnion (terms : List (List Piece)) : List Piece :=
  List.flatten (terms.intersperse [blank, mark .pipe, blank])

/-- The indices of a slice expression; `blanks` tells whether colons have blanks beside indices. -/
def layOutIndices (blanks : Bool) : List (Option (List Piece)) → List Piece
  | [] => []
  | [i] => i.getD []
  | i :: j :: rest =>
    let before := if blanks && i.isSome then [blank] else []
    let behind := if blanks && j.isSome then [blank] else []
    i.getD [] ++ before ++ mark .colon :: behind ++ layOutIndices blanks (j :: rest)

/-- Whether the colons of a slice expression have blanks beside indices. -/
def sliceBlanks (depth : Nat) (indices : List (Option Expr)) : Bool :=
  let present := indices.filterMap id
  depth ≤ 1 && present.length > 1 && present.any Expr.isBinary

/-- The depth of the left operand of a binary expression. -/
def leftDepth (prec depth : Nat) (x : Expr) : Nat :=
  if x.precedence? = some prec then depth else depth + 1

/-- The pieces of a binary expression. -/
def layOutBinary (blanks : Bool) (op : BinaryOp) (x y : List Piece) : List Piece :=
  if blanks then x ++ [blank, mark op.mark, blank] ++ y else x ++ mark op.mark :: y

/-- The pieces of a unary expression, with parentheses where the operand would fuse with the
operator. -/
def layOutUnary (op : Punct) (lastChar : Char) (binary : Bool) (x : List Piece) : List Piece :=
  mark op :: parensIf (binary || fuses lastChar (firstChar? x)) x

/-- Names and what follows them. -/
def layOutField (names : List Piece) (ty : List Piece) (tag : Option String) : List Piece :=
  let front := if names.isEmpty then [] else names ++ [blank]
  let back := match tag with
    | some raw => [blank, token (.literal .string raw)]
    | none => []
  front ++ ty ++ back

/-- Fields in brackets, or nothing. -/
def layOutTypeParams (params : List (List Piece)) : List Piece :=
  if params.isEmpty then [] else brackets (commas params)

/-- A declaration group; it is in parentheses unless it is a single line without them. -/
def layOutGroup (kind : GenKind) (grouped : Bool) (indent : Nat) (specs : List (List Piece)) :
    List Piece :=
  match grouped, specs with
  | false, [spec] => word kind.word :: blank :: spec
  | _, _ =>
    [word kind.word, blank, mark .lparen, newline] ++
      List.flatten (specs.map (indented (indent + 1))) ++ [tabs indent, mark .rparen]

/-- Whether a statement can stand behind `else`. -/
def Stmt.isElseBranch : Stmt → Bool
  | .ifElse .. | .block _ => true
  | _ => false

/-- Whether a statement has no text. -/
def Stmt.isEmpty : Stmt → Bool
  | .empty _ => true
  | _ => false

/-- The depth of the expressions of an assignment. -/
def assignDepth (lhs rhs : List Expr) : Nat :=
  if lhs.length > 1 && rhs.length > 1 then 2 else 1

/-- The depth of the function and the arguments of a call. -/
def callDepth (args : List Expr) (depth : Nat) : Nat :=
  if args.length > 1 then depth + 1 else depth

/-- The first statement in a header, and the semicolon behind it. -/
def layOutInit : Option (List Piece) → List Piece
  | some init => init ++ [mark .semi, blank]
  | none => []

/-- The depth of an operand, which is less in parentheses. -/
def operandDepth (parens : Bool) (depth : Nat) : Nat :=
  if parens then innerDepth depth else depth

mutual

/-- The pieces of a type. -/
def printType (indent : Nat) : TypeExpr → Printed
  | .name pkg name args => do
    if name.isEmpty then throw .emptyTypeName
    let args ← printTypes indent args
    let front := match pkg with
      | some p => [ident p, mark .dot, ident name]
      | none => [ident name]
    return front ++ layOutTypeParams args
  | .pointer elem => do
    return mark .star :: (← printType indent elem)
  | .slice elem => do
    return [mark .lbracket, mark .rbracket] ++ (← printType indent elem)
  | .array len elem => do
    let len ← printExpr? indent 1 len
    let elem ← printType indent elem
    return brackets (len.getD [mark .ellipsis]) ++ elem
  | .map key value => do
    let key ← printType indent key
    let value ← printType indent value
    return word .kwMap :: brackets key ++ value
  | .chan dir elem => do
    let inner ← printType indent elem
    return dir.print ++ parensIf (dir.parensAround elem) inner
  | .func sig => do
    return word .kwFunc :: (← printSignature indent sig)
  | .struct fields => do
    return layOutBraces .kwStruct indent (← printFields (indent + 1) fields)
  | .interface elems => do
    return layOutBraces .kwInterface indent (← printElems (indent + 1) elems)
  | .ellipsis elem => do
    return mark .ellipsis :: (← printType indent elem)
  | .union terms => do
    if terms.isEmpty then throw .emptyUnion
    return layOutUnion (← printTerms indent terms)
  | .paren inner => do
    return parens (← printType indent inner)

/-- The pieces of several types. -/
def printTypes (indent : Nat) : List TypeExpr → PrintedList
  | [] => return []
  | t :: ts => do
    let t ← printType indent t
    return t :: (← printTypes indent ts)

/-- The pieces of the terms of a union. -/
def printTerms (indent : Nat) : List UnionTerm → PrintedList
  | [] => return []
  | ⟨tilde, ty⟩ :: ts => do
    let ty ← printType indent ty
    return (if tilde then mark .tilde :: ty else ty) :: (← printTerms indent ts)

/-- The pieces of the lines of an interface type. -/
def printElems (indent : Nat) : List InterfaceElem → PrintedList
  | [] => return []
  | .method name sig :: es => do
    let name ← name.print
    let sig ← printSignature indent sig
    return (name ++ sig) :: (← printElems indent es)
  | .embedded ty :: es => do
    let ty ← printType indent ty
    return ty :: (← printElems indent es)

/-- The pieces of a field. -/
def printField (indent : Nat) : Field → Printed
  | ⟨names, ty, tag, _⟩ => do
    let names ← Ident.printAll names
    let ty ← printType indent ty
    return layOutField names ty tag

/-- The pieces of several fields. -/
def printFields (indent : Nat) : List Field → PrintedList
  | [] => return []
  | f :: fs => do
    let f ← printField indent f
    return f :: (← printFields indent fs)

/-- The pieces of parameters and results. -/
def printSignature (indent : Nat) : Signature → Printed
  | ⟨params, results⟩ => do
    let ps ← printFields indent params
    let rs ← printResults indent (Signature.bareResult results) results
    return parens (commas ps) ++ Signature.layOutResults (Signature.bareResult results) rs

/-- The pieces of several results. A result that is written without parentheses has no tag. -/
def printResults (indent : Nat) (bare : Bool) : List Field → PrintedList
  | [] => return []
  | ⟨names, ty, tag, _⟩ :: fs => do
    let names ← Ident.printAll names
    let ty ← printType indent ty
    return layOutField names ty (if bare then none else tag) :: (← printResults indent bare fs)

/-- The pieces of an expression at a depth. -/
def printExpr (indent depth : Nat) : Expr → Printed
  | .ident id => id.print
  | .lit kind raw _ =>
    if raw.isEmpty then throw .emptyLiteral else return [token (.literal kind raw)]
  | .composite ty elts _ => do
    let ty ← printExpr? indent 1 ty
    let elts ← printExprs indent 1 elts
    return ty.getD [] ++ mark .lbrace :: commas elts ++ [mark .rbrace]
  | .funcLit sig body _ => do
    let sig ← printSignature indent sig
    let body ← printBlock indent body
    return word .kwFunc :: sig ++ blank :: body
  | .paren x _ => do
    if x.isParen then printExpr indent depth x
    else return parens (← printExpr indent (innerDepth depth) x)
  | .selector x sel _ => do
    let x ← parensIf x.parensAsOperand <$>
      printExpr indent (operandDepth x.parensAsOperand depth) x
    let sel ← sel.print
    return x ++ mark .dot :: sel
  | .index x indices _ => do
    if indices.isEmpty then throw .emptyIndex
    let x ← parensIf x.parensAsOperand <$>
      printExpr indent (operandDepth x.parensAsOperand 1) x
    let indices ← printExprs indent (depth + 1) indices
    return x ++ brackets (commas indices)
  | .slice x low high max three _ => do
    if three && max.isNone then throw .missingMaxIndex
    let blanks := sliceBlanks depth (if three then [low, high, max] else [low, high])
    let x ← parensIf x.parensAsOperand <$>
      printExpr indent (operandDepth x.parensAsOperand 1) x
    let low ← printExpr? indent (depth + 1) low
    let high ← printExpr? indent (depth + 1) high
    if three then
      let max ← printExpr? indent (depth + 1) max
      return x ++ brackets (layOutIndices blanks [low, high, max])
    else
      return x ++ brackets (layOutIndices blanks [low, high])
  | .typeAssert x ty _ => do
    let x ← parensIf x.parensAsOperand <$>
      printExpr indent (operandDepth x.parensAsOperand 1) x
    let ty ← printType? indent ty
    return x ++ mark .dot :: parens (ty.getD [word .kwType])
  | .call fn args spread _ => do
    let fn ← parensIf fn.parensAsOperand <$>
      printExpr indent (operandDepth fn.parensAsOperand (callDepth args depth)) fn
    let printed ← printExprs indent (callDepth args depth) args
    if spread && args.isEmpty then throw .spreadWithoutArguments
    return fn ++ parens (commas printed ++ if spread then [mark .ellipsis] else [])
  | .star x _ => do
    let operand ← printExpr indent 1 x
    return layOutUnary .star '*' x.isBinary operand
  | .unary op x _ => do
    let operand ← printExpr indent (if x.isBinary then innerDepth depth else depth) x
    return layOutUnary op.mark op.lastChar x.isBinary operand
  | .binary op x y s => do
    let prec := op.precedence
    let blanks := prec < (Expr.binary op x y s).cutoff depth
    let left ← parensIf (x.parensBesides prec false) <$>
      printExpr indent (operandDepth (x.parensBesides prec false) (leftDepth prec depth x)) x
    let right ← parensIf (y.parensBesides prec true) <$>
      printExpr indent (operandDepth (y.parensBesides prec true) (depth + 1)) y
    return layOutBinary blanks op left right
  | .keyValue key value _ => do
    let key ← printExpr indent 1 key
    let value ← printExpr indent 1 value
    return key ++ [mark .colon, blank] ++ value
  | .type ty _ => printType indent ty

/-- The pieces of several expressions. -/
def printExprs (indent depth : Nat) : List Expr → PrintedList
  | [] => return []
  | x :: xs => do
    let x ← printExpr indent depth x
    return x :: (← printExprs indent depth xs)

/-- The pieces of an optional expression. -/
def printExpr? (indent depth : Nat) : Option Expr → Except PrintError (Option (List Piece))
  | none => return none
  | some x => some <$> printExpr indent depth x

/-- The pieces of an optional type. -/
def printType? (indent : Nat) : Option TypeExpr → Except PrintError (Option (List Piece))
  | none => return none
  | some ty => some <$> printType indent ty

/-- The pieces of a block. -/
def printBlock (indent : Nat) : Block → Printed
  | ⟨stmts, _⟩ => do
    return braces indent (← printStmts (indent + 1) stmts)

/-- The pieces of statements on lines of their own. -/
def printStmts (indent : Nat) : List Stmt → PrintedList
  | [] => return []
  | s :: ss => do
    let s ← printStmt .line indent s
    return s :: (← printStmts indent ss)

/-- The pieces of an optional statement in a header. -/
def printStmt? (indent : Nat) : Option Stmt → Except PrintError (Option (List Piece))
  | none => return none
  | some s => some <$> printStmt .header indent s

/-- The pieces of a declaration group. -/
def printGenDecl (indent : Nat) : GenDecl → Printed
  | ⟨kind, specs, grouped, _, _⟩ => do
    let depth := if grouped || specs.length != 1 then indent + 1 else indent
    return layOutGroup kind grouped indent (← printSpecs depth specs)

/-- The pieces of the lines of a declaration group. -/
def printSpecs (indent : Nat) : List Spec → PrintedList
  | [] => return []
  | .value names ty values _ :: specs => do
    if names.isEmpty then throw .emptyValueDeclaration
    let names ← Ident.printAll names
    let ty ← printType? indent ty
    let values ← printExprs indent 1 values
    let type := match ty with
      | some ty => blank :: ty
      | none => []
    let init := if values.isEmpty then [] else [blank, mark .eq, blank] ++ commas values
    return (names ++ type ++ init) :: (← printSpecs indent specs)
  | .type name params isAlias ty _ :: specs => do
    let name ← name.print
    let params ← printFields indent params
    let ty ← printType indent ty
    let gap : List Piece := if isAlias then [blank, mark .eq, blank] else [blank]
    return (name ++ layOutTypeParams params ++ gap ++ ty) :: (← printSpecs indent specs)

/-- The pieces of the clauses of a switch. -/
def printCases (indent : Nat) : List CaseClause → PrintedList
  | [] => return []
  | .case list body _ :: cs => do
    if list.isEmpty then throw .emptyCaseList
    let list ← printExprs indent 1 list
    let body ← printStmts (indent + 1) body
    let head := [tabs indent, word .kwCase, blank] ++ commas list ++ [mark .colon, newline]
    return (head ++ body.flatten) :: (← printCases indent cs)
  | .default body _ :: cs => do
    let body ← printStmts (indent + 1) body
    let head := [tabs indent, word .kwDefault, mark .colon, newline]
    return (head ++ body.flatten) :: (← printCases indent cs)

/-- The pieces of the clauses of a select. -/
def printComms (indent : Nat) : List CommClause → PrintedList
  | [] => return []
  | ⟨comm, body, _⟩ :: cs => do
    let comm ← printStmt? indent comm
    let body ← printStmts (indent + 1) body
    let head : List Piece := match comm with
      | some c => [word .kwCase, blank] ++ c
      | none => [word .kwDefault]
    return (tabs indent :: head ++ [mark .colon, newline] ++ body.flatten) ::
      (← printComms indent cs)

/-- The pieces of a statement at a place. -/
def printStmt (place : Place) (indent : Nat) : Stmt → Printed
  | .decl d => do
    return place.wrap indent (← printGenDecl indent d)
  | .labeled label s _ => do
    if place = .header then throw .misplacedStatement
    let label ← label.print
    let head := tabs (indent - 1) :: label ++ [mark .colon, newline]
    if s.isEmpty then
      return head ++ [tabs indent, mark .semi, newline]
    else
      return head ++ (← printStmt .line indent s)
  | .empty _ => do
    if place = .header then throw .misplacedStatement
    return []
  | .expr x => do
    return place.wrap indent (← printExpr indent 1 x)
  | .send chan value _ => do
    let chan ← printExpr indent 1 chan
    let value ← printExpr indent 1 value
    return place.wrap indent (chan ++ [blank, mark .arrow, blank] ++ value)
  | .incDec x inc _ => do
    let x ← printExpr indent 2 x
    return place.wrap indent (x ++ [mark (if inc then .plusPlus else .minusMinus)])
  | .assign lhs op rhs _ => do
    if lhs.isEmpty || rhs.isEmpty then throw .emptyAssignment
    let depth := assignDepth lhs rhs
    let lhs ← printExprs indent depth lhs
    let rhs ← printExprs indent depth rhs
    return place.wrap indent (commas lhs ++ [blank, mark op.mark, blank] ++ commas rhs)
  | .go call _ => do
    if !call.isCall then throw .goWithoutCall
    return place.wrap indent (word .kwGo :: blank :: (← printExpr indent 1 call))
  | .defer call _ => do
    if !call.isCall then throw .deferWithoutCall
    return place.wrap indent (word .kwDefer :: blank :: (← printExpr indent 1 call))
  | .returns results _ => do
    let results ← printExprs indent 1 results
    let values := if results.isEmpty then [] else blank :: commas results
    return place.wrap indent (word .kwReturn :: values)
  | .branch kind label _ => do
    match label with
    | some id => return place.wrap indent (word kind.word :: blank :: (← id.print))
    | none => return place.wrap indent [word kind.word]
  | .block b => do
    return place.wrap indent (← printBlock indent b)
  | .ifElse init cond body els _ => do
    let init ← printStmt? indent init
    let cond ← printExpr indent 1 cond
    let body ← printBlock indent body
    let head := word .kwIf :: blank :: layOutInit init ++ cond ++ blank :: body
    if els.any fun s => !s.isElseBranch then throw .badElseBranch
    match ← printStmt? indent els with
    | some s => return place.wrap indent (head ++ [blank, word .kwElse, blank] ++ s)
    | none => return place.wrap indent head
  | .switch init tag clauses _ => do
    let init ← printStmt? indent init
    let tag ← printExpr? indent 1 tag
    let clauses ← printCases indent clauses
    let tag := match tag with
      | some t => t ++ [blank]
      | none => []
    return place.wrap indent
      (word .kwSwitch :: blank :: layOutInit init ++ tag ++ braces indent clauses)
  | .typeSwitch init binding subject clauses _ => do
    let init ← printStmt? indent init
    let binding ← match binding with
      | some id => do pure ((← id.print) ++ [blank, mark .colonEq, blank])
      | none => pure []
    let subject ← parensIf subject.parensAsOperand <$>
      printExpr indent (operandDepth subject.parensAsOperand 1) subject
    let clauses ← printCases indent clauses
    let guard := subject ++ mark .dot :: parens [word .kwType] ++ [blank]
    return place.wrap indent
      (word .kwSwitch :: blank :: layOutInit init ++ binding ++ guard ++
        braces indent clauses)
  | .select clauses _ => do
    let clauses ← printComms indent clauses
    return place.wrap indent (word .kwSelect :: blank :: braces indent clauses)
  | .loop init cond post body _ => do
    let three := init.isSome || post.isSome
    let init ← printStmt? indent init
    let cond ← printExpr? indent 1 cond
    let post ← printStmt? indent post
    let body ← printBlock indent body
    let trailing (part : Option (List Piece)) : List Piece := match part with
      | some p => p ++ [blank]
      | none => []
    let head :=
      if three then
        init.getD [] ++ [mark .semi, blank] ++ cond.getD [] ++
          [mark .semi, blank] ++ trailing post
      else
        trailing cond
    return place.wrap indent (word .kwFor :: blank :: head ++ body)
  | .range key value define x body _ => do
    let keyed := key.isSome
    let key ← printExpr? indent 1 key
    let value ← if keyed then printExpr? indent 1 value else pure none
    let x ← printExpr indent 1 x
    let body ← printBlock indent body
    let op : Punct := if define then .colonEq else .eq
    let vars := match key, value with
      | some k, some v => commas [k, v] ++ [blank, mark op, blank]
      | some k, none => k ++ [blank, mark op, blank]
      | none, _ => []
    return place.wrap indent
      (word .kwFor :: blank :: vars ++ [word .kwRange, blank] ++ x ++
        blank :: body)

end

/-- The text of an expression on its own. -/
def Expr.render (e : Expr) : Except PrintError String :=
  (printExpr 0 1 e).text

/-- The text of a type on its own. -/
def TypeExpr.render (t : TypeExpr) : Except PrintError String :=
  (printType 0 t).text

end ServiceSplit
