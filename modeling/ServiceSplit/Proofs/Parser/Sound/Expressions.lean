import ServiceSplit.Proofs.Parser.Sound.Types

/-!
# What the parsers of expressions make

The parsers of expressions and blocks are sound if the parsers of the parts are. The parser of
binary operators keeps to the precedence that it is told, and the parsers of operands make no
operators at all; this is what puts operands in their places. The span of an expression is put
together from the spans of its parts and of the tokens behind them, so it starts where the first
token of the expression does.
-/

namespace ServiceSplit

open ServiceSplit.Parser

/-- What is known of an operand that starts at byte `s`: it has no operator outside of
parentheses. -/
structure Basis.Operand (B : Basis) (s : Nat) (x : Expr) : Prop where
  good : B.Good x
  span : B.SpanAt s x.span
  notOperator : x.isOperator = false

/-- The parser makes an operand of `x` and of what stands behind it. -/
def Basis.Extends (B : Basis) (n : Nat) (x : Expr) (K : List Nat) (p : Parser Expr) : Prop :=
  ∀ s, B.Run (fun _ => True) ⟨s, keys x ++ K⟩ n (fun _ => 0) p fun y =>
    B.Operand s x → B.Operand s y

/-- An expression is made as it should be if its parts are. -/
theorem Basis.good_of_parts {B : Basis} (x : Expr) (hintact : x.Intact B.toKnown)
    (htight : x.tightOperands = true) (hparts : x.EveryPart B.node) : B.Good x :=
  (x.every_iff B.node fun _ _ _ => ⟨trivial, rfl⟩).mpr ⟨⟨hintact, htight⟩, hparts⟩

namespace Grammar

variable {B : Basis} {n m : Nat} {G : Grammar} {P : Cursor → Prop} {F : Prior}

/-! ### Climbing -/

/-- What one round of the climb does. -/
theorem binaryStep_cases {least : Nat} {x : Expr} {c c' : Cursor} {o : Option Expr}
    (h : G.binaryStep least x c = .ok o c') :
    (o = .none ∧ c' = c ∧ ∀ op ∈ BinaryOp.ofToken? c.kind, op.precedence < least) ∨
      ∃ op y, G.binary (op.precedence + 1) c.advance = .ok y c' ∧
        o = some (.binary op x y (x.span.union y.span)) := by
  unfold Grammar.binaryStep at h
  obtain ⟨next, c₁, hpeek, h⟩ := Parser.exists_of_bind_eq_ok h
  cases hpeek
  cases hop : BinaryOp.ofToken? c.kind with
  | none =>
    rw [hop] at h
    cases h
    exact .inl ⟨rfl, rfl, nofun⟩
  | some op =>
    rw [hop] at h
    replace h : (if op.precedence < least then pure .none else _ : Parser (Option Expr)) c = _ := h
    split at h
    · rename_i hlt
      cases h
      refine .inl ⟨rfl, rfl, ?_⟩
      rintro _ ⟨⟩
      exact hlt
    · obtain ⟨_, c₂, hadvance, h⟩ := Parser.exists_of_bind_eq_ok h
      cases hadvance
      obtain ⟨y, c₃, hy, h⟩ := Parser.exists_of_bind_eq_ok h
      cases h
      exact .inr ⟨op, y, hy, rfl⟩

/-- The climb ends only in front of an operator that binds less tightly. -/
theorem stops_binaryExpr {least : Nat} {x : Expr} {c c' : Cursor}
    (h : G.binaryExpr least c = .ok x c') :
    ∀ op ∈ BinaryOp.ofToken? c'.kind, op.precedence < least := by
  have hclimb : ∀ {m : Nat} {x y : Expr} {c : Cursor},
    iterate (G.binaryStep least) m x c = .ok y c' →
      ∀ op ∈ BinaryOp.ofToken? c'.kind, op.precedence < least := by
    intro m
    induction m with
    | zero => exact nofun
    | succ m ih =>
      intro x y c h
      obtain ⟨o, c₁, hstep, hrest⟩ := Parser.exists_of_bind_eq_ok h
      rcases binaryStep_cases hstep with ⟨rfl, rfl, hstop⟩ | ⟨op, z, -, rfl⟩
      · cases hrest
        exact hstop
      · exact ih hrest
  obtain ⟨y, c₁, -, h⟩ := Parser.exists_of_bind_eq_ok h
  exact hclimb h

namespace Sound

/-! ### Blocks -/

/-- A list of statements reads a semicolon or a statement of some text in every round. -/
theorem stmtsFrom (hG : G.Sound B n) (hm : n ≤ m) {before : List Stmt}
    (hbefore : ∀ t ∈ before, B.GoodStmt t) :
    B.From (keys before.reverse) n (G.stmtsFrom m before) fun ts => ∀ t ∈ ts, B.GoodStmt t := by
  have hloop : ∀ {m k : Nat}, k ≤ n → k ≤ m → ∀ {before : List Stmt}, (∀ t ∈ before, B.GoodStmt t) →
      B.From (keys before.reverse) k (G.stmtsFrom m before) fun ts => ∀ t ∈ ts, B.GoodStmt t := by
    intro m
    induction m with
    | zero =>
      intro k _ hk
      obtain rfl := Nat.le_zero.mp hk
      exact fun _ s => .tooDeep
    | succ m ih =>
      intro k hkn hk before hbefore s
      have hrest : ∀ {before : List Stmt}, (∀ t ∈ before, B.GoodStmt t) →
          B.From (keys before.reverse) (k - 1) (G.stmtsFrom m before)
            fun ts => ∀ t ∈ ts, B.GoodStmt t :=
        ih (Nat.le_trans (k.sub_le 1) hkn) (Nat.sub_le_of_le_add hk)
      refine .peek fun next _ => ?_
      split
      · exact .pure (by simp) fun t ht => hbefore t (List.mem_reverse.mp ht)
      split
      · rename_i hsemi
        refine .advance (W := fun _ => True) (fun c hc => ?_) (fun _ _ => trivial)
          ((hrest hbefore).run (List.Sublist.refl _))
        rw [hc.2, beq_iff_eq.mp hsemi]
        nofun
      · rename_i hsemi
        have hstmt := (hG.stmt next (fun h => hsemi (beq_iff_eq.mpr h)) s).of_imp
          (P := fun c => True ∧ c.kind = next) fun c hc => hc.2
        refine Basis.Run.bind (hstmt.mono hkn (fun _ => Nat.le_refl _) fun _ ht => ht.1) (by simp)
          fun t ht => ?_
        have hmore := hrest (List.forall_mem_cons.mpr ⟨ht, hbefore⟩)
        refine .peek fun behind _ => ?_
        split
        · exact .pure_bind (hmore.run (by simp))
        · exact Basis.passes_expectTerminator.bind fun _ _ => hmore.run (by simp)
  exact hloop (Nat.le_refl n) hm hbefore

theorem stmtList (hG : G.Sound B n) : B.Passes n G.stmtList fun ts => ∀ t ∈ ts, B.GoodStmt t :=
  hG.stmtsFrom hG.bound nofun

theorem block (hG : G.Sound B n) : B.Takes (n + 1) G.block (Block.Every B.node) := fun _ =>
  .position fun _ => .expectFirst <| hG.stmtList.withBodyBrace.bind fun _ hts => .expect <|
    .spanFrom fun _ _ => .pure (by simp) hts

/-! ### Operands -/

theorem anyTypeExpr (hG : G.Sound B n) : B.Takes (n + 1) G.typeExpr B.GoodType :=
  fun s c _ hat =>
    ((hG.typeExpr c.kind (c.kindAt 1) s).mono (Nat.le_refl _) (fun _ => Nat.le_refl _)
    fun _ ht => ht.1) c ⟨rfl, rfl⟩ hat

theorem typeOperand (hG : G.Sound B n) {k : TokenKind} (hk : k ≠ .punct .semi) {s : Nat} :
    B.Run (fun c => c.start = s ∧ c.kind = k) ⟨s, []⟩ (n + 1) (fun _ => 1) G.typeOperand fun x =>
      B.Operand s x ∧ k ≠ .punct .semi :=
  .positionAt (fun _ hc => hc.1) <| hG.anyTypeExpr.first fun t ht => .spanUpTo fun stop hsp =>
    .pure (by simp)
      ⟨⟨Basis.good_of_parts (.type t _) trivial rfl ht.every, ⟨hsp, fun _ => ⟨stop, rfl⟩⟩, rfl⟩, hk⟩

theorem funcOperand (hG : G.Sound B n) :
    B.Run P F n (fun _ => 0) (G.funcOperand F.start) (B.Operand F.start) := by
  refine hG.signature.pred.bind fun sig hsig => .check fun brace => ?_
  split
  · exact hG.block.pred.bind fun body hbody => .spanUpTo fun stop hsp => .pure (by simp)
      ⟨Basis.good_of_parts (.funcLit sig body _) ⟨hsig.shaped.named, hsp⟩ rfl
        ⟨fun _ => hsig.every, hbody⟩, ⟨hsp, fun _ => ⟨stop, rfl⟩⟩, rfl⟩
  · refine .spanUpTo fun stop hsp => .pure (by simp)
      ⟨Basis.good_of_parts (.type (.func sig) _) trivial rfl ?_, ⟨hsp, fun _ => ⟨stop, rfl⟩⟩, rfl⟩
    exact (TypeExpr.every_iff _ _).mpr ⟨hsig.shaped, hsig.every⟩

theorem operand (hG : G.Sound B n) : B.Opens (n + 1) G.operand B.Operand := by
  intro s k
  refine .positionAt (fun _ hc => hc.1) (.peek fun next hnext => ?_)
  refine .assume (A := next = k) (fun c hc => hc.2.symm.trans hc.1.2) ?_
  rintro rfl
  have htype := fun hk : next ≠ .punct .semi => (hG.typeOperand hk (s := s)).of_imp
    (P := fun c => (c.start = s ∧ c.kind = next) ∧ c.kind = next) fun _ hc => hc.1
  split
  · exact .nextSpan (fun c hc => ⟨by simp [hc.2], hc.1.1⟩) fun sp hsp => .pure (by simp)
      ⟨⟨Basis.good_of_parts (.ident ⟨_, sp⟩) ⟨hnext, hsp.known⟩ rfl trivial, hsp, rfl⟩, nofun⟩
  · exact .nextSpan (fun c hc => ⟨by simp [hc.2], hc.1.1⟩) fun sp hsp => .pure (by simp)
      ⟨⟨Basis.good_of_parts (.lit _ _ sp) hnext rfl trivial, hsp, rfl⟩, nofun⟩
  · exact .next (hG.expr.withBodyBrace.bind fun x hx => .expect <| .spanUpTo fun stop hsp =>
      .pure (by simp)
      ⟨⟨Basis.good_of_parts (.paren x _) trivial rfl hx.good, ⟨hsp, fun _ => ⟨stop, rfl⟩⟩, rfl⟩,
        nofun⟩)
  · exact .next ((hG.funcOperand (F := ⟨s, []⟩)).mono (Nat.le_refl _) (fun _ => Nat.le_refl _)
      fun _ hx => ⟨hx, nofun⟩)
  · exact htype nofun
  · exact htype nofun
  · exact htype nofun
  · exact htype nofun
  · exact htype nofun
  · exact .fail nofun

/-! ### Selectors, indices, arguments and literal bodies -/

theorem argument (hG : G.Sound B n) : B.Takes n G.argument fun a => B.Good a.1 := fun _ =>
  hG.expr.bind fun _ hx => .acceptAny fun _ => .pure (by simp) hx.good

theorem arguments (hG : G.Sound B n) :
    B.Passes n G.arguments fun args => ∀ a ∈ args, B.Good a.1 := fun _ =>
  (hG.argument.commaList hG.bound).bind fun _ hargs => .expect <| .pure (by simp) hargs

theorem exprUnless (hG : G.Sound B n) (ends : List TokenKind) :
    B.Passes n (G.exprUnless ends) fun o => ∀ x ∈ o, B.Good x := by
  intro s
  refine .peek fun next _ => ?_
  split
  · exact .pure (by simp) nofun
  · exact hG.expr.bind fun x hx => .pure (by simp) fun y hy => Option.mem_some.mp hy ▸ hx.good

theorem sliceOf (hG : G.Sound B n) {x : Expr} {low : Option Expr} (hlow : ∀ y ∈ low, B.Good y) :
    B.Extends n x (keys low) (G.sliceOf x low) := by
  intro s
  refine (hG.exprUnless _).bind fun high hhigh => .acceptAny fun three => ?_
  have hrest : ∀ max : Option Expr, (three = true → max ≠ .none) ∧ (∀ y ∈ max, B.Read y) →
      B.Run (fun _ => True) ⟨s, keys x ++ keys low ++ keys high ++ keys max⟩ n (fun _ => 0) (do
        expect Punct.rbracket
        return Expr.slice x low high max three (x.span.union (← prevSpan)))
          fun y => B.Operand s x → B.Operand s y := by
    refine fun max hmax => .lastSpan Basis.takes_expect.run fun _ sp _ hsp hle =>
      .pure (by simp) fun hx =>
      ⟨Basis.good_of_parts (.slice x low high max three _) hmax.1 (congrArg not hx.notOperator) ?_,
        hx.span.union hsp hle, rfl⟩
    exact ⟨hx.good, hlow, hhigh, fun y hy => (hmax.2 y hy).good⟩
  split
  · split
    · exact .fail_bind nofun
    · refine (hG.expr.passes.map (g := some) (fun y hy => ?_) (by simp)).bind hrest
      exact ⟨fun _ => nofun, fun z hz => Option.mem_some.mp hz ▸ hy⟩
  · rename_i hthree
    exact .pure_bind ((hrest .none ⟨fun h => absurd h hthree, nofun⟩).frame (by simp))

theorem moreIndices (hG : G.Sound B n) (hm : n ≤ m) :
    B.Passes n (G.moreIndices m) fun xs => ∀ x ∈ xs, B.Good x := by
  have hloop : ∀ {m k : Nat}, k ≤ n → k ≤ m →
      B.Passes k (G.moreIndices m) fun xs => ∀ x ∈ xs, B.Good x := by
    intro m
    induction m with
    | zero =>
      intro k _ hk
      obtain rfl := Nat.le_zero.mp hk
      exact fun s => .tooDeep
    | succ m ih =>
      intro k hkn hk s
      have hless := Nat.le_trans (k.sub_le 1) hkn
      refine .accept (.check fun close => ?_) (.pure (by simp) nofun)
      split
      · exact .pure (by simp) nofun
      · exact (hG.expr.le hless).bind fun x hx =>
          (ih hless (Nat.sub_le_of_le_add hk)).bind fun xs hxs =>
            .pure (by simp) (List.forall_mem_cons.mpr ⟨hx.good, hxs⟩)
  exact hloop (Nat.le_refl n) hm

theorem indexOrSlice (hG : G.Sound B n) (x : Expr) : B.Extends n x [] (G.indexOrSlice x) := by
  intro s
  refine (hG.exprUnless _).bind fun low hlow =>
    .ifAccept ((hG.sliceOf hlow s).frame (F := ⟨s, _⟩) (by simp)) ?_
  split
  · exact .fail nofun
  · rename_i i
    refine (hG.moreIndices hG.bound).bind fun more hmore => .lastSpan Basis.takes_expect.run
      fun _ sp _ hsp hle => .pure (by simp) fun hx =>
        ⟨Basis.good_of_parts (.index x (i :: more) _) (List.cons_ne_nil _ _)
          (congrArg not hx.notOperator) ⟨hx.good, ?_⟩, hx.span.union hsp hle, rfl⟩
    exact List.forall_mem_cons.mpr ⟨hlow i rfl, hmore⟩

theorem keyedElement (hG : G.Sound B n) : B.Takes n G.keyedElement B.Good := fun _ =>
  hG.element.bind fun key hkey => .ifAccept
    (hG.element.bind fun value hvalue =>
      .pure (by simp) (Basis.good_of_parts (.keyValue key value _) trivial rfl ⟨hkey, hvalue⟩))
    (.pure (by simp) hkey)

theorem compositeBody (hG : G.Sound B n) :
    B.Takes (n + 1) G.compositeBody fun xs => ∀ x ∈ xs, B.Good x := fun _ =>
  .expectFirst <| (hG.keyedElement.commaList hG.bound).withBodyBrace.bind fun _ hxs =>
    .expect <| .pure (by simp) hxs

theorem selection (hG : G.Sound B n) (x : Expr) : B.Extends n x [] (G.selection x) := by
  intro s
  refine .ifAccept (.acceptAny fun type => ?_) ?_
  · refine .bind_ite Basis.passes_none hG.anyType.passes.some fun ty hty => ?_
    exact .lastSpan Basis.takes_expect.run fun _ sp _ hsp hle => .pure (by simp) fun hx =>
      ⟨Basis.good_of_parts (.typeAssert x ty _) trivial (congrArg not hx.notOperator)
        ⟨hx.good, fun t ht => (hty t ht).every⟩, hx.span.union hsp hle, rfl⟩
  · exact .take (Basis.run_expectIdent nofun) fun sel hsel => .pure (by simp) fun hx =>
      ⟨Basis.good_of_parts (.selector x sel _) hsel.1.1 (congrArg not hx.notOperator) hx.good,
        hx.span.union hsel.1.2 hsel.2, rfl⟩

/-- What stands behind an operand makes another one of it, with a token more at least. -/
theorem extend (hG : G.Sound B n) (x : Expr) {s : Nat} :
    B.Run P ⟨s, keys x⟩ n (fun o => o.isSome.toNat) (G.extend x)
      fun o => B.Operand s x → ∀ y ∈ o, B.Operand s y := by
  have hsome : ∀ {p : Parser Expr}, B.Extends n x [] p →
      B.Run (fun _ => True) ⟨s, keys x⟩ n (fun _ => 0) (p >>= fun y => pure (some y))
        fun o => B.Operand s x → ∀ y ∈ o, B.Operand s y :=
    fun hp => .bindFrom (H := []) (k := fun _ => 0) (hp s) (by simp) (by simp) fun y hy =>
      .pure (by simp) fun hx z hz => Option.mem_some.mp hz ▸ hy hx
  refine .peek fun next _ => ?_
  split
  · exact .skip (hsome (hG.selection x))
  · exact .skip (hsome fun s => (hG.indexOrSlice x s).withBodyBrace)
  · rw [← bind_assoc]
    refine .lastSpan (.skip hG.arguments.withBodyBrace.run) fun args sp hargs hsp hle =>
      .pure (by simp) ?_
    rintro hx _ ⟨⟩
    refine ⟨Basis.good_of_parts (.call x _ _ _) ?_ (congrArg not hx.notOperator)
      ⟨hx.good, List.forall_mem_map.mpr hargs⟩, hx.span.union hsp hle, rfl⟩
    rintro hspread hnil
    rw [List.map_eq_nil_iff.mp hnil] at hspread
    cases hspread
  · refine .get fun c => ?_
    split
    · refine .lastSpan hG.compositeBody.pred.run fun elts sp helts hsp hle => .pure (by simp) ?_
      rintro hx _ ⟨⟩
      refine ⟨Basis.good_of_parts (.composite (some x) elts _) trivial rfl ⟨?_, helts⟩,
        hx.span.union hsp hle, rfl⟩
      exact fun y hy => Option.mem_some.mp hy ▸ hx.good
    · exact .pure (by simp) fun _ => nofun
  · exact .pure (by simp) fun _ => nofun

theorem extended (hG : G.Sound B n) {x : Expr} {s : Nat} (hx : B.Operand s x) :
    B.Run (fun _ => True) ⟨s, keys x⟩ n (fun _ => 0) (G.extended x) (B.Operand s) :=
  Basis.Run.iterate (I := fun _ _ => True)
    (fun y hy => (hG.extend y).mono (Nat.le_refl _) (fun _ => Nat.le_refl _) fun _ ho => ho hy)
    (fun _ _ _ _ _ _ => trivial) hG.bound hx (List.Sublist.refl _)

/-! ### Operators -/

theorem unaryExpr (hG : G.Sound B n) : B.Opens (n + 1) G.unaryExpr fun s x =>
    B.Good x ∧ B.SpanAt s x.span ∧ x.isBinary = false := by
  have hextended : ∀ {x : Expr} {s : Nat} {A : Prop}, B.Operand s x ∧ A →
      B.Run (fun _ => True) (Prior.and ⟨s, []⟩ x) n (fun _ => 0) (G.extended x) fun x =>
        (B.Good x ∧ B.SpanAt s x.span ∧ x.isBinary = false) ∧ A := by
    intro x s A hx
    refine ((hG.extended hx.1).frame (F := ⟨s, _⟩) (by simp)).mono (Nat.le_refl _)
      (fun _ => Nat.le_refl _) fun y hy => ⟨⟨hy.good, hy.span, ?_⟩, hx.2⟩
    cases y <;> first | rfl | cases hy.notOperator
  intro s k
  refine .positionAt (fun _ hc => hc.1) (.peek fun next _ => .peekAt fun behind => ?_)
  refine .assume (A := next = k) (fun c hc => hc.1.2.symm.trans hc.1.1.2) ?_
  rintro rfl
  split
  · rename_i hchan
    refine ((hG.typeOperand ?_).of_imp fun _ hc => hc.1.1).first fun x hx => hextended hx
    rintro rfl
    cases hchan
  split
  · rename_i hstar
    obtain rfl := beq_iff_eq.mp hstar
    exact .next (hG.unary.bind fun x hx => .spanUpTo fun stop hsp => .pure (by simp)
      ⟨⟨Basis.good_of_parts (.star x _) trivial (congrArg not hx.2) hx.1,
        ⟨hsp, fun _ => ⟨stop, rfl⟩⟩, rfl⟩, nofun⟩)
  split
  · rename_i op hop
    refine .nextOf ?_ (hG.unary.bind fun x hx => .spanUpTo fun stop hsp => .pure (by simp)
      ⟨⟨Basis.good_of_parts (.unary op x _) trivial (congrArg not hx.2) hx.1,
        ⟨hsp, fun _ => ⟨stop, rfl⟩⟩, rfl⟩, ?_⟩)
    · rintro c ⟨⟨-, rfl⟩, -⟩ heof
      rw [heof] at hop
      cases hop
    · rintro rfl
      cases hop
  · exact ((hG.operand s _).of_imp fun _ hc => hc.1.1).first fun x hx => hextended hx

/-- The climb keeps what has been read at least as tight as `least`, and the operator that comes
next never binds more tightly than what has been read. -/
theorem binaryExpr (hG : G.Sound B n) (least : Nat) : B.Opens (n + 1)
    (G.binaryExpr least) fun s x =>
    B.Good x ∧ B.SpanAt s x.span ∧ ∀ p ∈ x.precedence?, least ≤ p := by
  let NextFits (x : Expr) (c : Cursor) : Prop :=
    ∀ op ∈ BinaryOp.ofToken? c.kind, ∀ p ∈ x.precedence?, op.precedence ≤ p
  have hstep : ∀ s A x, (B.Good x ∧ B.SpanAt s x.span ∧ ∀ p ∈ x.precedence?, least ≤ p) ∧ A →
      B.Run (NextFits x) ⟨s, keys x⟩ n (fun o => o.isSome.toNat) (G.binaryStep least x)
        fun o => ∀ y ∈ o, (B.Good y ∧ B.SpanAt s y.span ∧ ∀ p ∈ y.precedence?, least ≤ p) ∧ A := by
    rintro s A x ⟨⟨hx, hspan, hleast⟩, hA⟩
    refine .peek fun next _ => ?_
    split
    · exact .pure (by simp) nofun
    · rename_i op hop
      split
      · exact .pure (by simp) nofun
      · rename_i hle
        refine .assume (A := ∀ p ∈ x.precedence?, op.precedence ≤ p) ?_ fun hleft => ?_
        · rintro c ⟨hfits, rfl⟩
          exact hfits op hop
        · refine .skipOf ?_ ((hG.binary _).bind fun y s' hy hs => .pure (by simp) ?_)
          · rintro c ⟨-, rfl⟩ heof
            rw [heof] at hop
            cases hop
          · rintro _ ⟨⟩
            refine ⟨⟨Basis.good_of_parts (.binary op x y _) trivial ?_ ⟨hx, hy.1⟩, ?_, ?_⟩, hA⟩
            · simpa [Expr.tightOperands, Option.all_eq_true] using ⟨hleft, hy.2.2⟩
            · refine hspan.union hy.2.1.known fun hsorted => ?_
              obtain ⟨stop, hstop⟩ := hy.2.1.start hsorted
              rw [hstop]
              exact hs hsorted
            · rintro _ ⟨⟩
              exact Nat.le_of_not_lt hle
  have hkeep : ∀ x y c c', NextFits x c → G.binaryStep least x c = .ok (some y) c' →
    NextFits y c' := by
    intro x y c c' _ h
    rcases binaryStep_cases h with ⟨⟨⟩, -⟩ | ⟨op, z, hz, ⟨⟩⟩
    rintro op' hop' _ ⟨⟩
    exact Nat.le_of_lt_succ (hG.stops _ _ _ _ hz op' hop')
  intro s k
  refine (hG.unaryExpr s k).first fun x hx => ?_
  have hnone : x.precedence? = .none := by
    cases x <;> first | rfl | cases hx.1.2.2
  refine (Basis.Run.iterate (hstep s _) hkeep hG.bound ⟨⟨hx.1.1, hx.1.2.1, by simp [hnone]⟩, hx.2⟩
    (by simp)).of_imp fun c _ => ?_
  simp [NextFits, hnone]

theorem exprFirst (hG : G.Sound B n) : B.Opens (n + 1) G.exprFirst fun s x =>
    B.Good x ∧ B.SpanAt s x.span := fun s k =>
  (hG.binaryExpr 1 s k).mono (Nat.le_refl _) (fun _ => Nat.le_refl _) fun _ hx =>
      ⟨⟨hx.1.1, hx.1.2.1⟩, hx.2⟩

/-- What is known of expressions with commas between them that start at byte `s`. -/
structure Exprs (B : Basis) (s : Nat) (xs : Expr × List Expr) : Prop where
  good : B.Good xs.1
  span : B.SpanAt s xs.1.span
  more : ∀ x ∈ xs.2, B.Read x

theorem Exprs.read {s : Nat} {xs : Expr × List Expr} (h : Exprs B s xs) : ∀ x ∈ xs.1 :: xs.2,
    B.Read x :=
  List.forall_mem_cons.mpr ⟨⟨h.good, h.span.known⟩, h.more⟩

theorem exprs (hG : G.Sound B n) : B.Opens (n + 1) G.exprs (Exprs B) := fun s k =>
  (hG.exprFirst s k).first fun _ hx => (hG.expr.passes.following hG.bound).bind fun _ hxs =>
    .pure (by simp) ⟨⟨hx.1.1, hx.1.2, hxs⟩, hx.2⟩

theorem exprList (hG : G.Sound B n) :
    B.Takes (n + 1) G.exprList fun xs => xs ≠ [] ∧ ∀ x ∈ xs, B.Read x := fun _ =>
  (hG.exprs.takes fun _ _ => Exprs.read).first fun _ hxs => .pure (by simp)
      ⟨List.cons_ne_nil _ _, hxs⟩

theorem elementExpr (hG : G.Sound B n) : B.Takes (n + 1) G.elementExpr B.Good := by
  intro s
  refine .check fun brace => ?_
  split
  · exact .ranged (g := fun elts start stop => Expr.composite .none elts (.range start stop))
      hG.compositeBody (fun elts _ _ helts =>
        Basis.good_of_parts (.composite .none elts _) trivial rfl ⟨nofun, helts⟩) (by simp)
  · exact (hG.exprFirst.takes fun _ _ hx => hx.1).run

end Sound

end Grammar

end ServiceSplit
