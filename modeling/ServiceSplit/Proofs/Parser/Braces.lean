import Mathlib.Logic.Relation
import ServiceSplit.Proofs.Parser.Source

/-!
# The reading of braces

Inside the header of a control statement a brace behind a type name opens the body, elsewhere a
composite literal. The cursor says which reading is in force. Every parser gives the reading back
as it was, also when it fails, for it only moves over tokens. What stands in brackets of its own is
read with composite literals, whatever the reading around it: it makes no difference there if the
parsers of the parts refuse to run under the other reading.

## Main definitions

* `Parser.Restores`: the parser leaves the reading as it was.
* `Grammar.strict`: the grammar whose parsers refuse to run where braces open bodies.
* `Grammar.BracesScoped`: the reading of braces stays where it belongs.

## Main results

* `Grammar.bracesScoped_ofBound`: the grammars of all bounds keep the reading where it belongs.
-/

namespace ServiceSplit

namespace Parser

variable {α β : Type}

/-- The cursor that a parser leaves behind. -/
def leftover : EStateM.Result SyntaxError Cursor α → Cursor
  | .ok _ c | .error _ c => c

/-- The parser leaves the reading of braces as it was, whether it succeeds or fails. -/
class Restores (p : Parser α) : Prop where
  restores : ∀ c, (leftover (p c)).bodyBrace = c.bodyBrace

/-- The two parsers do the same where composite literals are read. -/
class Agree (p q : Parser α) : Prop where
  agree : ∀ c, c.bodyBrace = false → p c = q c

/-- The parser refuses to run where a brace behind a type name opens a body. -/
def refusing (p : Parser α) : Parser α := fun c =>
  if c.bodyBrace then fail .tooDeep c else p c

theorem withComposites_congr (p q : Parser α) [h : Agree p q] :
    withComposites p = withComposites q := by
  funext c
  unfold withComposites withBodyBrace
  rw [h.agree { c with bodyBrace := false } rfl]

/-! ### Composition -/

instance (a : α) : Restores (pure a : Parser α) := ⟨fun _ => rfl⟩

instance : Restores (get : Parser Cursor) := ⟨fun _ => rfl⟩

instance (p : Parser α) (f : α → Parser β) [hp : Restores p] [hf : ∀ a, Restores (f a)] :
    Restores (p >>= f) where
  restores c := by
    have h := hp.restores c
    change (leftover (EStateM.bind p f c)).bodyBrace = c.bodyBrace
    unfold EStateM.bind
    cases hpc : p c with
    | ok a next =>
      rw [hpc] at h
      exact ((hf a).restores next).trans h
    | error e next =>
      rw [hpc] at h
      exact h

/-- The form of the composition that leaves the second parser open. -/
theorem restores_bind {p : Parser α} {f : α → Parser β} [Restores p] (hf : ∀ a, Restores (f a)) :
    Restores (p >>= f) :=
  inferInstance

instance (f : α → β) (p : Parser α) [Restores p] : Restores (f <$> p) :=
  inferInstanceAs (Restores (p >>= fun a => pure (f a)))

instance {c : Prop} [Decidable c] (p q : Parser α) [Restores p] [Restores q] :
    Restores (if c then p else q) := by
  split <;> assumption

instance (p : Parser α) : Agree p p := ⟨fun _ _ => rfl⟩

instance (p : Parser α) : Agree (refusing p) p where
  agree c hc := if_neg (by simp [hc])

instance (p q : Parser α) (f g : α → Parser β) [hq : Restores q] [h : Agree p q]
    [hf : ∀ a, Agree (f a) (g a)] : Agree (p >>= f) (q >>= g) where
  agree c hc := by
    have hbrace := hq.restores c
    change EStateM.bind p f c = EStateM.bind q g c
    unfold EStateM.bind
    rw [h.agree c hc]
    cases hqc : q c with
    | ok a next =>
      rw [hqc] at hbrace
      exact (hf a).agree next (hbrace.trans hc)
    | error e next => rfl

/-- The form of the composition that leaves the second parsers open. -/
theorem agree_bind {p q : Parser α} {f g : α → Parser β} [Restores q] [Agree p q]
    (hf : ∀ a, Agree (f a) (g a)) : Agree (p >>= f) (q >>= g) :=
  inferInstance

instance (f : α → β) (p q : Parser α) [Restores q] [Agree p q] : Agree (f <$> p) (f <$> q) :=
  inferInstanceAs (Agree (p >>= fun a => pure (f a)) (q >>= fun a => pure (f a)))

instance {c : Prop} [Decidable c] (p q p' q' : Parser α) [Agree p q] [Agree p' q'] :
    Agree (if c then p else p') (if c then q else q') := by
  split <;> assumption

/-! ### Tokens and sequences -/

theorem bodyBrace_advance (c : Cursor) : c.advance.bodyBrace = c.bodyBrace := by
  obtain ⟨rest, prev, comments, brace⟩ := c
  cases rest <;> rfl

instance (cause : SyntaxCause) : Restores (fail cause : Parser α) := ⟨fun _ => rfl⟩

instance : Restores advance := ⟨bodyBrace_advance⟩

instance : Restores peek := by unfold peek; infer_instance

instance : Restores position := by unfold position; infer_instance

instance (start : Nat) : Restores (spanFrom start) := by unfold spanFrom; infer_instance

instance (kind : TokenKind) : Restores (check kind) := by unfold check; infer_instance

instance : Restores atEnd := by unfold atEnd; infer_instance

instance (kind : TokenKind) : Restores (accept kind) := by unfold accept; infer_instance

instance (kind : TokenKind) : Restores (expect kind) := by unfold expect; infer_instance

instance : Restores expectTerminator :=
  restores_bind fun _ => by split <;> infer_instance

instance (close : TokenKind) (item : Parser α) [Restores item] (n : Nat) :
    Restores (commaList close item n) := by
  induction n <;> (unfold commaList; infer_instance)

instance (close : TokenKind) (item item' : Parser α) [Restores item'] [Agree item item'] (n : Nat) :
    Agree (commaList close item n) (commaList close item' n) := by
  induction n <;> (unfold commaList; infer_instance)

instance (close : TokenKind) (item : List α → Parser α) [∀ as, Restores (item as)] (n : Nat)
    (before : List α) : Restores (items close item n before) := by
  induction n generalizing before <;> (unfold items; infer_instance)

instance (n : Nat) (close : TokenKind) (item : Parser α) [Restores item] :
    Restores (lines n close item) := by
  unfold lines; infer_instance

instance (step : α → Parser (Option α)) [∀ a, Restores (step a)] (n : Nat) (a : α) :
    Restores (iterate step n a) := by
  induction n generalizing a with
  | zero => unfold iterate; infer_instance
  | succ n ih =>
    have hnext (o : Option α) : Restores (match o with
        | some b => iterate step n b
        | none => pure a) := by
      cases o <;> infer_instance
    unfold iterate
    infer_instance

end Parser

namespace Grammar

open ServiceSplit.Parser

/-! ### Brackets -/

/-- The grammar whose parsers of expressions, elements and statements refuse to run where a brace
behind a type name opens a body. -/
def strict (G : Grammar) : Grammar :=
  { G with
    binary least := refusing (G.binary least)
    unary := refusing G.unary
    element := refusing G.element
    stmt := refusing G.stmt }

/-- The parsers of expressions, elements and statements leave the reading of braces as it was. -/
class KeepsBraces (G : Grammar) : Prop where
  expr : Restores G.expr
  element : Restores G.element
  stmt : Restores G.stmt

attribute [instance] KeepsBraces.expr KeepsBraces.element KeepsBraces.stmt

variable (G : Grammar)

theorem strict_bound : G.strict.bound = G.bound :=
  rfl

instance : Agree G.strict.expr G.expr :=
  inferInstanceAs (Agree (refusing (G.binary 1)) (G.binary 1))

instance : Agree G.strict.element G.element := inferInstanceAs (Agree (refusing _) _)

instance : Agree G.strict.stmt G.stmt := inferInstanceAs (Agree (refusing _) _)

theorem strict_typeExpr : G.strict.typeExpr = G.typeExpr := by
  have h := withComposites_congr G.strict.expr G.expr
  have hbracket : G.strict.bracketType = G.bracketType := by
    simp only [bracketType, h]
    rfl
  simp only [typeExpr, hbracket]
  rfl

variable [G.KeepsBraces]

instance (n : Nat) (before : List Stmt) :
    Agree (G.strict.stmtsFrom n before) (G.stmtsFrom n before) := by
  induction n generalizing before <;> (unfold stmtsFrom; infer_instance)

instance : Agree G.strict.stmtList G.stmtList :=
  inferInstanceAs (Agree (G.strict.stmtsFrom G.bound []) (G.stmtsFrom G.bound []))

theorem strict_block : G.strict.block = G.block := by
  have h := withComposites_congr G.strict.stmtList G.stmtList
  simp only [block, h]

theorem strict_operand : G.strict.operand = G.operand := by
  have h := withComposites_congr G.strict.expr G.expr
  simp only [operand, funcOperand, typeOperand, h, strict_block, strict_typeExpr]
  rfl

instance : Agree G.strict.keyedElement G.keyedElement := by unfold keyedElement; infer_instance

instance : Restores G.keyedElement := by unfold keyedElement; infer_instance

theorem strict_compositeBody : G.strict.compositeBody = G.compositeBody := by
  have h := withComposites_congr (commaList Punct.rbrace G.strict.keyedElement G.bound)
    (commaList Punct.rbrace G.keyedElement G.bound)
  simp only [compositeBody, strict_bound, h]

instance : Restores G.argument := by unfold argument; infer_instance

instance : Agree G.strict.argument G.argument := by unfold argument; infer_instance

instance : Agree G.strict.arguments G.arguments := by
  unfold arguments; rw [strict_bound]; infer_instance

instance (ends : List TokenKind) : Restores (G.exprUnless ends) := by
  unfold exprUnless; infer_instance

instance (ends : List TokenKind) : Agree (G.strict.exprUnless ends) (G.exprUnless ends) := by
  unfold exprUnless; infer_instance

instance (x : Expr) (low : Option Expr) : Agree (G.strict.sliceOf x low) (G.sliceOf x low) := by
  unfold sliceOf; infer_instance

instance (n : Nat) : Restores (G.moreIndices n) := by
  induction n <;> (unfold moreIndices; infer_instance)

instance (n : Nat) : Agree (G.strict.moreIndices n) (G.moreIndices n) := by
  induction n <;> (unfold moreIndices; infer_instance)

instance (x : Expr) : Agree (G.strict.indexOrSlice x) (G.indexOrSlice x) := by
  unfold indexOrSlice
  rw [strict_bound]
  repeat' first | infer_instance | refine agree_bind fun _ => ?_ | split

theorem strict_extend (x : Expr) : G.strict.extend x = G.extend x := by
  have hindex := withComposites_congr (G.strict.indexOrSlice x) (G.indexOrSlice x)
  have harguments := withComposites_congr G.strict.arguments G.arguments
  simp only [extend, hindex, harguments, strict_compositeBody]
  rfl

/-- The parsers of a grammar keep the reading of braces where it belongs. Each one gives the reading
back as it found it. What stands in brackets of its own, and the declarations of a file, are read
with composite literals whatever stands around them. -/
structure BracesScoped (G : Grammar) (source : List Char) : Prop where
  types : Restores G.typeExpr ∧ Restores G.signature ∧ Restores G.typeParams
  operands : Restores G.operand ∧ Restores G.unaryExpr ∧
    ∀ least, Restores (G.binaryExpr least)
  postfixes : ∀ x, Restores (G.extend x) ∧ Restores (G.extended x) ∧
    Restores (G.selection x) ∧ Restores (G.indexOrSlice x)
  lists : Restores G.arguments ∧ Restores G.compositeBody ∧
    Restores G.elementExpr ∧ Restores G.exprs
  headers : Restores G.headerStmt ∧ Restores G.headerExpr ∧
    Restores G.ifHeader ∧ Restores G.switchHeader ∧ Restores G.forHeader
  statements : Restores G.block ∧ Restores G.stmtList ∧
    Restores G.simpleStmt ∧ Restores G.statement
  clauses : (∀ types before, Restores (G.caseClause types before)) ∧
    Restores G.commClause
  declarations : (∀ kind, Restores (G.genDecl kind)) ∧ Restores (G.topDecl source) ∧
    Restores (G.importDecl source)
  /-- Statements in a block, expressions in parentheses and as array lengths, elements of a literal,
  indices and arguments are only read with composite literals. -/
  inside : G.strict.block = G.block ∧ G.strict.operand = G.operand ∧
    G.strict.typeExpr = G.typeExpr ∧ G.strict.compositeBody = G.compositeBody ∧
    ∀ x, G.strict.extend x = G.extend x
  /-- Every round that starts behind the head of a file, also one behind an error. -/
  topLevel : ∀ tokens comments head c, fileHead { rest := tokens, comments } = .ok head c →
    ∀ reached, Relation.ReflTransGen (fun s t => t = Reading.round G source s.1 s.2) (c, {})
      reached → reached.1.bodyBrace = false

end Grammar

open ServiceSplit.Parser

/-! ### Parsers that move -/

namespace Basis

variable {α : Type} [HasKeys α] {K : List Nat} {n : Nat} {p : Parser α} {Q : α → Prop}

theorem Ends.bodyBrace {B : Basis} {l : α → Nat} {c : Cursor}
    {r : EStateM.Result SyntaxError Cursor α} (h : B.Ends K n l Q c r) :
    (leftover r).bodyBrace = c.bodyBrace := by
  cases r with
  | ok a c' =>
    obtain ⟨⟨_, hmoves, -⟩, -⟩ := h
    exact hmoves.brace
  | error e c' =>
    obtain ⟨⟨_, hmoves⟩, -⟩ := h
    exact hmoves.brace

theorem Run.restores {l : α → Nat} {Q : Nat → α → Prop}
    (h : ∀ s, unknown.Run (fun _ => True) ⟨s, K⟩ n l p (Q s)) : Restores p :=
  ⟨fun c => (h c.start c trivial (at_start fun _ _ => trivial)).bodyBrace⟩

theorem Passes.restores (h : unknown.Passes n p Q) : Restores p :=
  Run.restores h

theorem Takes.restores (h : unknown.Takes n p Q) : Restores p :=
  Run.restores h

theorem Opens.restores {Q : Nat → α → Prop} (h : unknown.Opens n p Q) : Restores p :=
  (h.takes (R := fun _ => True) fun _ _ _ => trivial).restores

end Basis

private theorem bodyBrace_go (ts : List Token) (c : Cursor) :
    (synchronize.go c ts).bodyBrace = c.bodyBrace := by
  induction ts generalizing c with
  | nil => rfl
  | cons t ts ih =>
    have hnext : (synchronize.go c.advance ts).bodyBrace = c.bodyBrace :=
      (ih c.advance).trans (bodyBrace_advance c)
    unfold synchronize.go
    grind

/-- Skipping to the next declaration does not touch the reading of braces. -/
theorem bodyBrace_synchronize (c : Cursor) : (synchronize c).bodyBrace = c.bodyBrace := by
  unfold synchronize
  rw [bodyBrace_go]
  split
  · rfl
  · exact bodyBrace_advance c

namespace Grammar.Sound

variable {G : Grammar} {n : Nat} (hG : G.Sound .unknown n)

include hG

set_option synthInstance.maxSize 500 in
theorem restores_genDecl (kind : GenKind) : Restores (G.genDecl kind) := by
  have hspec := (hG.spec kind).restores
  unfold Grammar.genDecl
  infer_instance

theorem restores_extend (x : Expr) : Restores (G.extend x) :=
  ⟨fun c => (hG.extend (P := fun _ => True) x c trivial
    (Basis.at_start fun _ _ => trivial)).bodyBrace⟩

theorem restores_extended (x : Expr) : Restores (G.extended x) := by
  have hextend := hG.restores_extend
  unfold Grammar.extended
  infer_instance

/-- In front of a semicolon stands a statement of no text. -/
theorem restores_statement : Restores G.statement where
  restores c := by
    by_cases hsemi : c.kind = .punct .semi
    · have heq : G.statement c = Grammar.emptyHere c := by
        have hpeek : ∀ f : TokenKind → Parser Stmt, (Parser.peek >>= f) c = f c.kind c :=
          fun _ => rfl
        rw [Grammar.statement, hpeek, hsemi]
      rw [heq]
      rfl
    · exact (hG.statement c.kind hsemi c.start c rfl (Basis.at_start fun _ _ => trivial)).bodyBrace

theorem bodyBrace_round (source : List Char) (c : Cursor) (r : Reading) :
    (Reading.round G source c r).1.bodyBrace = c.bodyBrace := by
  have himport := (hG.importDecl source).restores.restores c
  have hdecl := (hG.topDecl source).restores.restores c
  unfold Reading.round Reading.readImport Reading.readDecl
  split
  · exact bodyBrace_advance c
  · cases h : G.importDecl source c <;> simp_all [leftover, bodyBrace_synchronize]
  · cases h : G.topDecl source c <;> simp_all [leftover, bodyBrace_synchronize]

end Grammar.Sound

instance (n : Nat) : (Grammar.ofBound n).KeepsBraces where
  expr := ((Grammar.sound_ofBound .unknown n).binary 1).restores
  element := (Grammar.sound_ofBound .unknown n).element.restores
  stmt := by
    cases n with
    | zero => exact inferInstanceAs (Restores (fail _))
    | succ n => exact (Grammar.sound_ofBound .unknown n).restores_statement

/-- For every token list and every cursor, whatever the bound on the depth of the text. -/
theorem Grammar.bracesScoped_ofBound (n : Nat) (source : List Char) :
    (ofBound n).BracesScoped source := by
  have hG := sound_ofBound .unknown n
  constructor
  case types => exact ⟨hG.anyTypeExpr.restores, hG.signature.restores, hG.typeParams.restores⟩
  case operands =>
    exact ⟨hG.operand.restores, hG.unaryExpr.restores, fun _ => (hG.binaryExpr _).restores⟩
  case postfixes =>
    exact fun x => ⟨hG.restores_extend x, hG.restores_extended x,
      Basis.Run.restores (hG.selection x), Basis.Run.restores (hG.indexOrSlice x)⟩
  case lists =>
    exact ⟨hG.arguments.restores, hG.compositeBody.restores, hG.elementExpr.restores,
      hG.exprs.restores⟩
  case headers =>
    exact ⟨hG.headerStmt.restores, hG.headerExpr.restores, hG.ifHeader.restores,
      hG.switchHeader.restores, hG.forHeader.restores⟩
  case statements =>
    exact ⟨hG.block.restores, hG.stmtList.restores, hG.simpleStmt.restores, hG.restores_statement⟩
  case clauses => exact ⟨fun _ _ => (hG.caseClause _ _).restores, hG.commClause.restores⟩
  case declarations =>
    exact ⟨hG.restores_genDecl, (hG.topDecl source).restores, (hG.importDecl source).restores⟩
  case inside =>
    exact ⟨strict_block _, strict_operand _, strict_typeExpr _, strict_compositeBody _,
      strict_extend _⟩
  case topLevel =>
    intro tokens comments head c hhead reached hreached
    induction hreached with
    | refl =>
      have h := (Basis.takes_fileHead (n := 0)).restores.restores { rest := tokens, comments }
      rw [hhead] at h
      exact h
    | tail _ hstep ih => rw [hstep, hG.bodyBrace_round, ih]

end ServiceSplit
