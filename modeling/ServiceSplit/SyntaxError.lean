import ServiceSplit.Text.Basic
import ServiceSplit.Token.Basic

/-!
# Syntax errors

Why a source text is not a program, and how each reason reads in a message.
-/

namespace ServiceSplit

/-- The reasons why a source text is refused. -/
inductive SyntaxCause where
  /-- A block comment is not closed. -/
  | unterminatedComment
  /-- An interpreted string literal is not closed on its line. -/
  | unterminatedString
  /-- A rune literal is not closed on its line. -/
  | unterminatedRune
  /-- A raw string literal is not closed. -/
  | unterminatedRawString
  /-- A number runs on into letters or digits that do not belong to it. -/
  | invalidDigit (literal : String)
  /-- No token starts with this character. -/
  | unexpectedChar (c : Char)
  /-- One certain token has to stand here. -/
  | expectedToken (expected found : TokenKind)
  /-- A statement is over but the line goes on. -/
  | unexpectedAtEnd (found : TokenKind)
  | lateImport
  | expectedPackageName
  | expectedImportPath
  | emptyImportPath
  | expectedDeclaration
  | receiverCount
  | expectedFunctionName
  | genericMethod
  | expectedName
  | expectedNameAfterComma
  | bareVariable
  | expectedTypeName
  | expectedTypeParam
  | emptyTypeParams
  | mixedParams
  | missingParamType
  | expectedTypeNameAfterDot
  | expectedType
  | expectedFieldName
  | expectedFieldNameAfterComma
  /-- The operand of `go` or `defer` calls nothing. -/
  | notACall (word : Keyword)
  | expectedGotoLabel
  | definesNonName
  /-- An operator assignment has several operands. -/
  | severalOperands (operator : String)
  | expectedAssignment
  | missingCondition
  | expectedElseBranch
  | statementAsCondition
  | severalDefaults
  | notACommunication
  | tooManyRangeVariables
  | expectedExpression
  | expectedSelector
  | missingMiddleIndex
  | expectedIndex
  /-- The text is nested deeper than it is long. -/
  | tooDeep
  /-- A second function of the same name; the first one is declared at a byte offset. -/
  | redeclared (name : String) (firstOffset : Nat)
  /-- The program is a library. -/
  | notMainPackage (found : String)
deriving DecidableEq, Repr, Inhabited

namespace SyntaxCause

/-- The text of an error. -/
def message : SyntaxCause → String
  | unterminatedComment => "Unterminated block comment"
  | unterminatedString => "Unterminated string literal"
  | unterminatedRune => "Unterminated rune literal"
  | unterminatedRawString => "Unterminated raw string literal"
  | invalidDigit literal => "Invalid digit in literal `" ++ literal ++ "`"
  | unexpectedChar c => "Unexpected character '" ++ String.singleton c ++ "'"
  | expectedToken expected found =>
    "Expected " ++ expected.describe ++ ", found " ++ found.describe
  | unexpectedAtEnd found => "Unexpected " ++ found.describe ++ " at end of statement"
  | lateImport => "imports must appear before other declarations"
  | expectedPackageName => "Expected package name"
  | expectedImportPath => "Expected import path string"
  | emptyImportPath => "Empty import path"
  | expectedDeclaration => "Expected declaration"
  | receiverCount => "Method must have exactly one receiver"
  | expectedFunctionName => "Expected function name"
  | genericMethod => "Methods cannot have type parameters"
  | expectedName => "Expected name"
  | expectedNameAfterComma => "Expected name after ','"
  | bareVariable => "Variable declaration needs a type or an initializer"
  | expectedTypeName => "Expected type name"
  | expectedTypeParam => "Expected type parameter name"
  | emptyTypeParams => "Empty type parameter list"
  | mixedParams => "Mixed named and unnamed parameters"
  | missingParamType => "Missing type for parameter"
  | expectedTypeNameAfterDot => "Expected type name after '.'"
  | expectedType => "Expected type"
  | expectedFieldName => "Expected field name"
  | expectedFieldNameAfterComma => "Expected field name after ','"
  | notACall word => "Expression in " ++ word.text ++ " must be a function call"
  | expectedGotoLabel => "Expected label after goto"
  | definesNonName => "Non-name on left side of :="
  | severalOperands operator =>
    "Operator " ++ operator ++ " requires single-valued expressions"
  | expectedAssignment => "Expected assignment after expression list"
  | missingCondition => "Missing condition in if statement"
  | expectedElseBranch => "Expected if statement or block after else"
  | statementAsCondition => "Expected boolean expression, found statement"
  | severalDefaults => "Multiple defaults in switch"
  | notACommunication => "Select case must be a send or receive"
  | tooManyRangeVariables => "Range clause permits at most two iteration variables"
  | expectedExpression => "Expected expression"
  | expectedSelector => "Expected selector after '.'"
  | missingMiddleIndex => "Middle index required in 3-index slice"
  | expectedIndex => "Expected index expression"
  | tooDeep => "Nesting is too deep"
  | redeclared name _ => "function `" ++ name ++ "` redeclared in this file"
  | notMainPackage found => "expected package main, found package " ++ found

/-- The text at the marked place; the message itself unless a shorter one says enough. -/
def label : SyntaxCause → String
  | expectedToken expected _ => "expected " ++ expected.describe
  | redeclared .. => "duplicate declaration"
  | cause => cause.message

/-- Advice on how to mend the text. -/
def help : SyntaxCause → Option String
  | unexpectedAtEnd _ => some "statements are separated by newlines or ';'"
  | redeclared _ firstOffset =>
    some ("first declared at byte offset " ++ Text.decimal firstOffset)
  | notMainPackage _ => some "only executable programs can be split into services"
  | _ => none

end SyntaxCause

/-- A reason to refuse a source text, and the place it is about. -/
structure SyntaxError where
  /-- The reason. -/
  cause : SyntaxCause
  /-- The place. -/
  span : Span
deriving DecidableEq, Repr, Inhabited

namespace SyntaxError

/-- The text of an error. -/
def message (e : SyntaxError) : String :=
  e.cause.message

/-- The text at the marked place. -/
def label (e : SyntaxError) : String :=
  e.cause.label

/-- Advice on how to mend the text. -/
def help (e : SyntaxError) : Option String :=
  e.cause.help

end SyntaxError

end ServiceSplit
