import ServiceSplit.Proofs.Parser.Source

/-!
# Progress

The cursor of the parsers only moves forward, and never past the end of the text. A part of the text
has one token or more, and every round of a loop reads one or is the last round. This is why the
bounds of the loops and of the depth, which are the number of tokens, are never met, and why a file
is read up to its end.
-/

namespace ServiceSplit

namespace Parser

variable {α β σ : Type}

/-! ### Moving forward -/

/-- How a run from the cursor `c` ends: at a cursor that comes from `c` by reading tokens in front
of the end, which is still to come. They are as many as `least` tells if there is a value. There may
be an error, which is not for want of depth. -/
def EndsAhead (c : Cursor) (least : α → Nat) : EStateM.Result SyntaxError Cursor α → Prop
  | .ok a c' => ∃ read, c.Moves read c' ∧ EndsOnce c'.rest ∧ least a ≤ read.length
  | .error e c' => ∃ read, c.Moves read c' ∧ EndsOnce c'.rest ∧ e.cause ≠ .tooDeep

/-- In front of fewer than `n` tokens, the last of which is the end, runs of the parser end
ahead. -/
def Forward (n : Nat) (least : α → Nat) (p : Parser α) : Prop :=
  ∀ c : Cursor, EndsOnce c.rest → c.rest.length < n → EndsAhead c least (p c)

/-- Runs of the parser end ahead, behind one token or more if there is a value. -/
def Consumes (n : Nat) (p : Parser α) : Prop :=
  Forward n (fun _ => 1) p

/-! ### Loops -/

/-- What a round of a loop comes to: there is another round, whose result `f` changes, or none. -/
inductive Round (σ β : Type) where
  | again (s : σ) (f : β → β)
  | leave (b : β)

/-- How many tokens a round reads at least. -/
@[simp] def Round.least : Round σ β → Nat
  | again .. => 1
  | leave _ => 0

/-- A loop of at most so many rounds. -/
def rounds (round : σ → Parser (Round σ β)) : (bound : Nat) → σ → Parser β
  | 0, _ => fail .tooDeep
  | m + 1, s => do
    match ← round s with
    | .again s f => f <$> rounds round m s
    | .leave b => return b

/-- The parser, which is told how many rounds it may have, is a loop. Every round moves forward, and
reads a token if there is another one. -/
def LoopsForward (n : Nat) (loop : Nat → Parser β) : Prop :=
  ∃ (σ : Type) (round : σ → Parser (Round σ β)) (s : σ),
    (∀ m, loop m = rounds round m s) ∧ ∀ s, Forward n Round.least (round s)

end Parser

open ServiceSplit.Parser

section

variable {α β σ : Type} {n : Nat} {p : Parser α} {R : α → Prop} {K : List Nat}

theorem Basis.Ends.ahead [HasKeys α] {least : α → Nat} {c : Cursor}
    {r : EStateM.Result SyntaxError Cursor α} (h : Basis.unknown.Ends K n least R c r)
    (hend : EndsOnce c.rest) (hn : c.rest.length < n) : EndsAhead c least r := by
  cases r with
  | ok a c' =>
    obtain ⟨⟨read, hmoves, hlen, -⟩, -⟩ := h
    exact ⟨read, hmoves, hmoves.endsOnce hend, hlen⟩
  | error e c' =>
    obtain ⟨⟨read, hmoves⟩, hdeep, -⟩ := h
    exact ⟨read, hmoves, hmoves.endsOnce hend, fun h => absurd (hdeep h) (Nat.not_le.mpr hn)⟩

theorem Basis.Run.forward [HasKeys α] {least : α → Nat}
    (h : ∀ s, Basis.unknown.Run (fun _ => True) ⟨s, K⟩ n least p R) : Forward n least p :=
  fun c hend hn => (h c.start c trivial (Basis.at_start fun _ _ => trivial)).ahead hend hn

theorem Basis.Takes.consumes [HasKeys α] (h : Basis.unknown.Takes n p R) : Consumes n p :=
  Basis.Run.forward h

instance : HasKeys (Round σ β) where
  keys _ := []
  lag := false

instance : Prompt (Round σ β) :=
  ⟨rfl⟩

@[simp] theorem keys_round (r : Round σ β) : keys r = [] :=
  rfl

instance : AtMostOne (Parser.Round.least : Round σ β → Nat) :=
  ⟨fun r => by cases r <;> simp [Round.least]⟩

namespace Basis

variable [HasKeys α]

theorem Passes.loopsForward_following (h : unknown.Passes n p R) {sep : TokenKind}
    [sep.NotEnd] : LoopsForward n (Parser.following sep p) := by
  let round : Unit → Parser (Round Unit (List α)) := fun _ => do
    if ← accept sep then
      let a ← p
      return .again () (a :: ·)
    else
      return .leave []
  refine ⟨Unit, round, (), fun m => ?_, fun _ => Run.forward (K := []) (R := fun _ => True) fun s =>
    ?_⟩
  · induction m with
    | zero => rfl
    | succ m ih =>
      simp only [Parser.following, rounds, round, ih, bind_assoc]
      exact bind_congr fun found => by cases found <;> simp
  · exact .ifAccept (h.bind fun a _ => .pure (by simp) trivial) (.pure (by simp) trivial)

theorem Takes.loopsForward_commaList (h : unknown.Takes n p R) (close : TokenKind) :
    LoopsForward n (Parser.commaList close p) := by
  let round : Unit → Parser (Round Unit (List α)) := fun _ => do
    if (← check close) || (← atEnd) then
      return .leave []
    else
      let a ← p
      if ← accept Punct.comma then
        return .again () (a :: ·)
      else
        return .leave [a]
  refine ⟨Unit, round, (), fun m => ?_, fun _ => Run.forward (K := []) (R := fun _ => True) fun s =>
    ?_⟩
  · induction m with
    | zero => rfl
    | succ m ih =>
      simp only [Parser.commaList, rounds, round, ih, bind_assoc]
      refine bind_congr fun closed => bind_congr fun ended => ?_
      split
      · simp
      · simp only [bind_assoc]
        exact bind_congr fun a => bind_congr fun found => by cases found <;> simp
  · refine .check fun closed => .check fun ended => ?_
    split
    · exact .pure (by simp) trivial
    · refine h.bind (fun a _ => .acceptAny fun found => ?_)
      cases found <;> exact .pure (by simp) trivial

theorem loopsForward_items {item : List α → Parser α}
    (h : ∀ before, unknown.Takes n (item before) R)
    (close : TokenKind) (before : List α) : LoopsForward n (Parser.items close item · before) := by
  let round : List α → Parser (Round (List α) (List α)) := fun before => do
    if (← check close) || (← atEnd) then
      return .leave before.reverse
    else if ← accept Punct.semi then
      return .again before id
    else
      let a ← item before
      return .again (a :: before) id
  refine ⟨List α, round, before, fun m => ?_,
    fun before => Run.forward (K := []) (R := fun _ => True) fun s => ?_⟩
  · induction m generalizing before with
    | zero => rfl
    | succ m ih =>
      simp only [Parser.items, rounds, round, ih, bind_assoc]
      refine bind_congr fun closed => bind_congr fun ended => ?_
      split
      · simp
      · simp only [bind_assoc]
        exact bind_congr fun found => by cases found <;> simp
  · refine .check fun closed => .check fun ended => ?_
    split
    · exact .pure (by simp) trivial
    · exact .ifAccept (.pure (by simp) trivial)
        ((h before).bind (fun a _ => .pure (by simp) trivial))

theorem Takes.loopsForward_lines (h : unknown.Takes n p R) (close : TokenKind) :
    LoopsForward n (Parser.lines · close p) := by
  refine loopsForward_items (R := R) (fun _ s => h.bind fun a ha => .check fun closed =>
    ?_) close []
  cases closed
  · exact Takes.bind takes_expect fun _ _ => .pure (by simp) ha
  · exact .pure (by simp) ha

theorem loopsForward_iterate {step : α → Parser (Option α)}
    (h : ∀ a s, unknown.Run (fun _ => True) ⟨s, keys a⟩ n (fun o => o.isSome.toNat) (step a)
      fun _ => True) (a : α) : LoopsForward n (Parser.iterate step · a) := by
  let round : α → Parser (Round α α) := fun a => do
    let next ← step a
    return next.elim (.leave a) (.again · id)
  refine ⟨α, round, a, fun m => ?_, fun a => Run.forward (K := keys a) (R := fun _ => True) fun s =>
    ?_⟩
  · induction m generalizing a with
    | zero => rfl
    | succ m ih =>
      simp only [Parser.iterate, rounds, round, ih, bind_assoc]
      exact bind_congr fun next => by cases next <;> simp
  · refine Run.bindFrom (H := []) (h a s) (List.Sublist.refl _) (by simp [Prompt.eq_false])
      fun next _ => ?_
    cases next <;> exact .pure (by simp) trivial

end Basis

end

/-! ### Loops of grammars -/

namespace Grammar.Sound

open ServiceSplit.Basis

variable {G : Grammar} {n : Nat}

theorem loopsForward_stmtsFrom (hG : G.Sound unknown n) : LoopsForward n (G.stmtsFrom · []) := by
  let round : List Stmt → Parser (Round (List Stmt) (List Stmt)) := fun before => do
    let next ← peek
    if endsList next || next == .eof then
      return .leave before.reverse
    else if next == .punct .semi then
      advance
      return .again before id
    else
      let s ← G.stmt
      unless endsList (← peek) do
        expectTerminator
      return .again (s :: before) id
  refine ⟨List Stmt, round, [], fun m => ?_,
    fun before => Run.forward (K := []) (R := fun _ => True) fun s => ?_⟩
  · suffices ∀ before, G.stmtsFrom m before = rounds round m before from this []
    induction m with
    | zero => exact fun _ => rfl
    | succ m ih =>
      intro before
      simp only [Grammar.stmtsFrom, rounds, round, ih, bind_assoc]
      refine bind_congr fun next => ?_
      split
      · simp
      split
      · simp
      · simp only [bind_assoc]
        refine bind_congr fun t => bind_congr fun behind => ?_
        split <;> simp
  · refine .peek fun next _ => ?_
    split
    · exact .pure (by simp) trivial
    split
    · rename_i hsemi
      refine .skipOf (fun c hc => ?_) (.pure (by simp) trivial)
      rw [hc.2, beq_iff_eq.mp hsemi]
      simp
    · rename_i hsemi
      have hstmt := (hG.stmt next (fun h => hsemi (beq_iff_eq.mpr h)) s).of_imp
        (P := fun c => True ∧ c.kind = next) fun c hc => hc.2
      refine hstmt.take (fun t _ => .peek fun behind _ => ?_)
      split
      · exact .pure_bind (.pure (by simp) trivial)
      · exact passes_expectTerminator.bind fun _ _ => .pure (by simp) trivial

theorem loopsForward_moreIndices (hG : G.Sound unknown n) : LoopsForward n G.moreIndices := by
  let round : Unit → Parser (Round Unit (List Expr)) := fun _ => do
    if ← accept Punct.comma then
      if ← check Punct.rbracket then
        return .leave []
      else
        let i ← G.expr
        return .again () (i :: ·)
    else
      return .leave []
  refine ⟨Unit, round, (), fun m => ?_, fun _ => Run.forward (K := []) (R := fun _ => True) fun s =>
    ?_⟩
  · induction m with
    | zero => rfl
    | succ m ih =>
      simp only [Grammar.moreIndices, rounds, round, ih, bind_assoc]
      refine bind_congr fun found => ?_
      cases found
      · simp
      · simp only [if_true, bind_assoc]
        exact bind_congr fun closed => by cases closed <;> simp
  · refine .ifAccept (.check fun closed => ?_) (.pure (by simp) trivial)
    split
    · exact .pure (by simp) trivial
    · exact hG.expr.bind fun i _ => .pure (by simp) trivial

theorem loopsForward_binaryStep (hG : G.Sound unknown n) (least : Nat) (x : Expr) :
    LoopsForward n (iterate (G.binaryStep least) · x) := by
  refine loopsForward_iterate (fun y s => .peek fun next _ => ?_) x
  split
  · exact .pure (by simp) trivial
  split
  · exact .pure (by simp) trivial
  · rename_i op hop _
    refine .skipOf ?_ ((hG.binary _).bind fun z _ _ _ => .pure (by simp) trivial)
    rintro c ⟨-, rfl⟩ heof
    rw [heof] at hop
    cases hop

theorem loopsForward_extend (hG : G.Sound unknown n) (x : Expr) :
    LoopsForward n (iterate G.extend · x) :=
  loopsForward_iterate (fun y _ =>
    (hG.extend y).mono (Nat.le_refl n) (fun _ => Nat.le_refl _) fun _ _ => trivial) x

end Grammar.Sound

/-- The parts that a grammar reads from fewer than `n` tokens have one token or more, and its loops
move forward. A statement of a list is read where no semicolon comes next. -/
structure Grammar.Progresses (G : Grammar) (n : Nat) (source : List Char) : Prop where
  expr : Consumes n G.expr
  type : Consumes n G.type
  spec : ∀ kind, Consumes n (G.spec kind)
  topDecl : Consumes n (G.topDecl source)
  importDecl : Consumes n (G.importDecl source)
  stmt : ∀ c : Cursor, c.kind ≠ .punct .semi → EndsOnce c.rest → c.rest.length < n →
    EndsAhead c (fun _ => 1) (G.stmt c)
  names : ∀ cause, cause ≠ .tooDeep → LoopsForward n (following Punct.comma (expectIdent cause))
  exprs : LoopsForward n (following Punct.comma G.expr)
  caseTypes : LoopsForward n (following Punct.comma G.caseType)
  unionTerms : LoopsForward n (following Punct.pipe G.unionTerm)
  indices : LoopsForward n G.moreIndices
  parameters : LoopsForward n (commaList Punct.rparen G.paramEntry)
  typeParams : LoopsForward n (commaList Punct.rbracket G.typeParam)
  typeArgs : LoopsForward n (commaList Punct.rbracket G.type)
  arguments : LoopsForward n (commaList Punct.rparen G.argument)
  elements : LoopsForward n (commaList Punct.rbrace G.keyedElement)
  specs : ∀ kind, LoopsForward n (lines · Punct.rparen (G.spec kind))
  imports : LoopsForward n (lines · Punct.rparen (do importSpec (← leadingGroup source)))
  fields : LoopsForward n (lines · Punct.rbrace G.structField)
  interfaceElems : LoopsForward n (lines · Punct.rbrace G.interfaceElem)
  caseClauses : ∀ types, LoopsForward n (items Punct.rbrace (G.caseClause types) · [])
  commClauses : LoopsForward n (items Punct.rbrace (fun _ => G.commClause) · [])
  stmts : LoopsForward n (G.stmtsFrom · [])
  extensions : ∀ x, LoopsForward n (iterate G.extend · x)
  operators : ∀ least x, LoopsForward n (iterate (G.binaryStep least) · x)

theorem Grammar.Sound.progresses {G : Grammar} {n : Nat} (hG : G.Sound Basis.unknown n)
    (source : List Char) : G.Progresses n source where
  expr := hG.expr.consumes
  type := hG.anyType.consumes
  spec kind := (hG.spec kind).consumes
  topDecl := (hG.topDecl source).pred.consumes
  importDecl := (hG.importDecl source).pred.consumes
  stmt c hc hend hn :=
    (hG.stmt c.kind hc c.start c rfl (Basis.at_start fun _ _ => trivial)).ahead hend hn
  names _ hcause := (Basis.takes_expectIdent hcause).passes.loopsForward_following
  exprs := hG.expr.passes.loopsForward_following
  caseTypes := hG.caseType.passes.loopsForward_following
  unionTerms := hG.unionTerm.passes.loopsForward_following
  indices := hG.loopsForward_moreIndices
  parameters := hG.paramEntry.loopsForward_commaList _
  typeParams := hG.typeParam.loopsForward_commaList _
  typeArgs := hG.anyType.loopsForward_commaList _
  arguments := hG.argument.loopsForward_commaList _
  elements := hG.keyedElement.loopsForward_commaList _
  specs kind := (hG.spec kind).loopsForward_lines _
  imports := (Basis.takes_importLine source).loopsForward_lines _
  fields := hG.structField.loopsForward_lines _
  interfaceElems := hG.interfaceElem.loopsForward_lines _
  caseClauses types := Basis.loopsForward_items (hG.caseClause types) _ []
  commClauses := Basis.loopsForward_items (fun _ => hG.commClause) _ []
  stmts := hG.loopsForward_stmtsFrom
  extensions := hG.loopsForward_extend
  operators := hG.loopsForward_binaryStep

/-! ### Files -/

/-- Together, the rounds read tokens up to the end at most. -/
theorem Reading.Rounds.moves {G : Grammar} {source : List Char} {c c' : Cursor} {r r' : Reading}
    (h : Rounds G source c r c' r') : ∃ read, c.Moves read c' := by
  induction h with
  | done c r => exact ⟨[], .refl c⟩
  | round _ hmoves _ _ ih =>
    obtain ⟨read, hrest⟩ := ih
    exact ⟨_, hmoves.trans hrest⟩

/-- The text is read up to its end: behind the package clause, rounds that read a token each lead to
a cursor where nothing but the end is left, and what they have read makes the result. -/
def ReadsToEnd (source : List Char) (tokens : List Token) (comments : List Comment) : Prop :=
  EndsAhead { rest := tokens, comments } (fun _ => 1) (fileHead { rest := tokens, comments }) ∧
    match fileHead { rest := tokens, comments } with
    | .error e _ => parseTokens source tokens comments = .error [e]
    | .ok (buildConstraints, package) c => ∃ c' r t,
      Reading.Rounds (.ofBound (tokens.length + 1)) source c {} c' r ∧ c'.rest = [t] ∧
        t.kind = .eof ∧
        (∀ e ∈ r.errors, e.cause ≠ .tooDeep) ∧
        parseTokens source tokens comments = if r.errors.isEmpty then
          .ok { buildConstraints, package, imports := r.imports.reverse, decls := r.decls.reverse }
        else .error r.errors.reverse

theorem EndsOnce.readsToEnd {tokens : List Token} (h : EndsOnce tokens) (source : List Char)
    (comments : List Comment) : ReadsToEnd source tokens comments := by
  have hhead := Basis.takes_fileHead.consumes { rest := tokens, comments } h (Nat.lt_succ_self _)
  refine ⟨hhead, ?_⟩
  split
  · rename_i e c hfail
    rw [parseTokens, hfail]
  · rename_i constraints package c hok
    rw [hok] at hhead
    obtain ⟨read, hmoves, hend, -⟩ := hhead
    have hlen : tokens.length = read.length + c.rest.length := hmoves.length
    have hbound : c.rest.length ≤ tokens.length + 1 := by omega
    obtain ⟨c', hrounds, heof, hgood, -⟩ := Reading.exists_rounds
      (Grammar.sound_ofBound Basis.unknown (tokens.length + 1)) source (c := c) (r := {})
      (fun _ _ => trivial) hbound hend Reading.good_empty hbound
    obtain ⟨read', hmoves'⟩ := hrounds.moves
    obtain ⟨t, ht⟩ := (hmoves'.endsOnce hend).eq_singleton heof
    refine ⟨c', _, t, hrounds, ht, ?_, fun e he => (hgood.errors e he).1, ?_⟩
    · simpa [Cursor.kind, ht] using heof
    · rw [parseTokens, hok]

/-- Parsing ends, on every list of tokens whose only end is its last token and so on every source
text: parts consume tokens, loops move forward, and the text is read up to its end. -/
theorem parsing_progresses :
    (∀ source tokens comments, scan source = .ok (tokens, comments) → EndsOnce tokens) ∧
      (∀ n source, (Grammar.ofBound n).Progresses n source) ∧
      ∀ tokens, EndsOnce tokens → ∀ source comments, ReadsToEnd source tokens comments :=
  ⟨fun _ _ _ h => (standsOn_of_scan h).2.1, fun n _ => (Grammar.sound_ofBound _ n).progresses _,
    fun _ h => h.readsToEnd⟩

/-- A text that is no program. -/
private theorem scan_stray : scan "package p\n)".toList =
    .ok ([⟨.keyword .kwPackage, 0, 7⟩, ⟨.ident "p", 8, 9⟩, ⟨.punct .semi, 9, 9⟩,
      ⟨.punct .rparen, 10, 11⟩, ⟨.punct .semi, 11, 11⟩, ⟨.eof, 11, 11⟩], []) := by
  decide +kernel

theorem parsing_progresses_error :
    ∃ tokens, scan "package p\n)".toList = .ok (tokens, []) ∧ EndsOnce tokens ∧
      ReadsToEnd "package p\n)".toList tokens [] := by
  have hend := parsing_progresses.1 _ _ _ scan_stray
  exact ⟨_, scan_stray, hend, parsing_progresses.2.2 _ hend _ _⟩

end ServiceSplit
