import ServiceSplit.Parser.Sequence
import ServiceSplit.Tree.Query

/-!
# Grammars

Types, expressions and statements contain one another. Their parsers are written over a grammar that
has the parsers of the parts, each of which starts behind at least one token of the whole. A grammar
for texts of `n + 1` tokens is therefore made from one for texts of `n` tokens, and no parser calls
itself.
-/

namespace ServiceSplit

/-- Parsers for the parts of a type, an expression or a statement. -/
structure Grammar where
  /-- A bound on the number of tokens of a part. -/
  bound : Nat
  /-- An expression whose binary operators bind at least as tightly as a given precedence. -/
  binary : Nat → Parser Expr
  /-- An operand with the unary operators in front of it. -/
  unary : Parser Expr
  /-- A type. -/
  type : Parser TypeExpr
  /-- A key or a value in a composite literal. -/
  element : Parser Expr
  /-- A statement. -/
  stmt : Parser Stmt

namespace Grammar

/-- The grammar whose parsers all fail. -/
def none : Grammar where
  bound := 0
  binary _ := .fail .tooDeep
  unary := .fail .tooDeep
  type := .fail .tooDeep
  element := .fail .tooDeep
  stmt := .fail .tooDeep

/-- An expression inside a larger part. -/
def expr (G : Grammar) : Parser Expr :=
  G.binary 1

end Grammar

end ServiceSplit
