import ServiceSplit.Proofs.Parser.Sound.Expressions

/-!
# What the parsers of statements make

The parsers of statements and declaration groups are sound if the parsers of the parts are, and so
all grammars are sound: no parser of a grammar for `n` tokens fails for want of depth on fewer
tokens.
-/

namespace ServiceSplit

open ServiceSplit.Parser

/-- A statement is made as it should be if its parts are. -/
theorem Basis.goodStmt_of_parts {B : Basis} (t : Stmt) (hintact : t.Intact B.toKnown)
    (hparts : t.EveryPart B.node) : B.GoodStmt t :=
  (t.every_iff B.node).mpr ⟨hintact, hparts⟩

theorem Basis.GoodStmt.parts {B : Basis} {t : Stmt} (h : B.GoodStmt t) : t.EveryPart B.node :=
  ((t.every_iff B.node).mp h).2

/-- What is known of a simple statement that is read. -/
structure Basis.Simple (B : Basis) (t : Stmt) : Prop where
  good : B.GoodStmt t
  fits : t.fitsHeader = true
  span : B.span t.span

/-- What is known of a line of a declaration group that is read. -/
structure Basis.GoodSpec (B : Basis) (spec : Spec) : Prop where
  intact : spec.Intact B.toKnown
  every : spec.Every B.node

/-- What is known of a declaration group that is read. -/
structure Basis.GoodGroup (B : Basis) (d : GenDecl) : Prop where
  intact : d.Intact B.toKnown
  every : ∀ spec ∈ d.specs, spec.Every B.node

/-- What is known of the header of a `for` statement. -/
def ForHeader.Good (B : Basis) : ForHeader → Prop
  | loop init cond post => (∀ t ∈ init, B.Simple t) ∧ (∀ x ∈ cond, B.Good x) ∧ ∀ t ∈ post,
      B.Simple t
  | range key value _ x => (∀ y ∈ key, B.Good y) ∧ (∀ y ∈ value, B.Good y) ∧ B.Good x

namespace Grammar

variable {B : Basis} {n : Nat} {G : Grammar} {P : Cursor → Prop} {F : Prior}

namespace Sound

/-! ### Declaration groups -/

theorem valueSpec (hG : G.Sound B n) (kind : GenKind) :
    B.Takes n (G.valueSpec kind) B.GoodSpec := by
  intro s
  refine .position fun s => (hG.names (by nofun) (by nofun)).pred.bind fun ids hids =>
    .peek fun next _ => ?_
  refine .bind_ite Basis.passes_none hG.anyType.passes.some fun ty hty => ?_
  have hrest : ∀ values : List Expr, (∀ x ∈ values, B.Read x) →
      B.Run (fun _ => True) ⟨s, keys ty ++ keys values⟩ n (fun _ => 0) (do
        let span ← spanFrom s
        if kind = .var ∧ ty.isNone ∧ values.isEmpty then
          failAt .bareVariable span
        else
          return Spec.value ids ty values span) B.GoodSpec := by
    refine fun values hvalues => .spanFrom fun sp hsp => ?_
    split
    · exact .failAt nofun hsp
    · exact .pure (by simp)
        ⟨hids, fun t ht => (hty t ht).every, fun x hx => (hvalues x hx).good⟩
  refine .ifAccept ?_ ?_
  · exact hG.exprList.pred.passes.bind fun values hvalues =>
      (hrest values hvalues.2).frame (by simp)
  · exact .pure_bind (((hrest [] nofun).of_imp fun _ _ => trivial).frame (by simp))

theorem typeSpec (hG : G.Sound B n) : B.Takes n G.typeSpec B.GoodSpec := by
  intro s
  refine .position fun s => .expectIdent nofun fun name hname => .check fun _ =>
    .peekAt fun _ => .peekAt
    fun _ => ?_
  refine .bind_ite (R := TypeParams B) hG.typeParams.pred.passes (Basis.passes_pure (by simp) nofun)
    fun params hparams => .acceptAny fun _ => hG.anyType.passes.bind fun ty hty =>
      .spanFrom fun sp _ => ?_
  exact .pure (by simp) ⟨⟨hname.1, fun f hf => (hparams f hf).1⟩, fun f hf => (hparams f hf).2,
    hty.every⟩

theorem spec (hG : G.Sound B n) (kind : GenKind) : B.Takes n (G.spec kind) B.GoodSpec := by
  cases kind with
  | type => exact hG.typeSpec
  | var => exact hG.valueSpec .var
  | const => exact hG.valueSpec .const

theorem genDecl (hG : G.Sound B n) (kind : GenKind)
    (hP : ∀ c, P c → c.kind ≠ .eof ∧ c.kind ≠ .punct .semi) :
    B.Run P F (n + 1) (fun _ => 1) (G.genDecl kind) B.GoodGroup := by
  have hrest : ∀ {s : Nat} {grouped : Bool} (specs : List Spec), (∀ spec ∈ specs, B.GoodSpec spec) →
      B.Run (fun _ => True) ⟨s, s :: keys specs⟩ n (fun _ => 0)
        (do return (⟨kind, specs, grouped, [], ← spanFrom s⟩ : GenDecl)) B.GoodGroup :=
    fun specs h => .spanUpTo fun stop hsp => .pure (by simp [Span.start])
      ⟨⟨fun spec hspec => (h spec hspec).intact, hsp⟩, fun spec hspec => (h spec hspec).every⟩
  refine .startWith hP fun s => .acceptAny fun grouped => ?_
  split
  · exact ((hG.spec kind).lines hG.bound).bind fun specs h =>
      .expect <| .pure_bind ((hrest specs h).frame (by simp))
  · exact (hG.spec kind).bind fun spec h =>
      .pure_bind ((hrest [spec] (List.forall_mem_singleton.mpr h)).frame (by simp))

/-! ### Simple statements -/

theorem checkAssign {lhs rhs : List Expr} {op : AssignOp} {span : Span} {u : Nat}
    (hlhs : lhs ≠ [] ∧ ∀ x ∈ lhs, B.Read x) (hrhs : rhs ≠ [] ∧ ∀ x ∈ rhs, B.Read x)
    (hspan : B.SpanAt u span) :
    B.From (u :: (keys lhs ++ keys rhs)) n (checkAssign lhs op rhs span) B.Simple := by
  have hdone : B.Simple (.assign lhs op rhs span) :=
    ⟨Basis.goodStmt_of_parts _ ⟨hlhs.1, hrhs.1, hspan.known⟩
      ⟨fun x hx => (hlhs.2 x hx).good, fun x hx => (hrhs.2 x hx).good⟩, rfl, hspan.known⟩
  have hkeys : B.sorted →
      (keys (Stmt.assign lhs op rhs span)).Sublist (u :: (keys lhs ++ keys rhs)) := by
    intro hsorted
    obtain ⟨stop, rfl⟩ := hspan.start hsorted
    simp [Span.start]
  intro s
  unfold Grammar.checkAssign
  split
  · split
    · rename_i bad hbad
      exact .failAt (by simp) (hlhs.2 bad (List.mem_of_find?_eq_some hbad)).span
    · exact .pureIf rfl hkeys hdone
  · exact .pureIf rfl hkeys hdone
  · split
    · exact .pureIf rfl hkeys hdone
    · exact .failAt (by simp) hspan.known

theorem simpleFrom (hG : G.Sound B n) {xs : Expr × List Expr} {s : Nat} (h : Exprs B s xs) :
    B.Run (fun _ => True) ⟨s, s :: keys xs⟩ n (fun _ => 0) (G.simpleFrom xs.1 xs.2) B.Simple := by
  refine .peek fun next _ => ?_
  split
  · rename_i op hop
    refine .skipOf ?_ (.lastSpan hG.exprList.pred.run fun rhs sp hrhs hsp hle => ?_)
    · rintro c ⟨-, rfl⟩ heof
      rw [heof] at hop
      cases hop
    · exact (checkAssign (u := s) ⟨List.cons_ne_nil _ _, h.read⟩ hrhs (h.span.union hsp hle)).run
        (by simp)
  refine .frame (K := keys xs) ?_ (List.sublist_cons_self _ _)
  split
  · exact .fail nofun
  split
  · rename_i harrow
    refine .skipOf (fun c hc => ?_) (hG.expr.bind fun value hvalue => .pure (by simp) ?_)
    · rw [hc.2, beq_iff_eq.mp harrow]
      nofun
    · have hsp := B.union h.span.known hvalue.span
      exact ⟨Basis.goodStmt_of_parts (.send xs.1 value _) hsp ⟨h.good, hvalue.good⟩, rfl, hsp⟩
  split
  · rename_i hmark
    refine .lastSpan (.only ?_) fun _ sp _ hsp _ => .pure (by simp)
      ⟨Basis.goodStmt_of_parts (.incDec xs.1 _ _) trivial h.good, rfl, B.union h.span.known hsp⟩
    rintro c ⟨-, rfl⟩ heof
    rw [heof] at hmark
    cases hmark
  · exact .pure (by simp) ⟨Basis.goodStmt_of_parts (.expr xs.1) trivial h.good, rfl, h.span.known⟩

theorem simpleStmt (hG : G.Sound B n) : B.Takes (n + 1) G.simpleStmt B.Simple := fun _ =>
  hG.exprs.opening fun _ _ hxs => hG.simpleFrom hxs

theorem headerStmt (hG : G.Sound B n) : B.Takes (n + 1) G.headerStmt B.Simple :=
  hG.simpleStmt.withBodyBrace

theorem headerExpr (hG : G.Sound B n) : B.Takes (n + 1) G.headerExpr B.Good :=
  (hG.exprFirst.takes fun _ _ hx => hx.1).withBodyBrace

theorem condition {t : Stmt} (h : B.Simple t) : B.From (keys t) n (condition t) B.Good := by
  intro s
  unfold Grammar.condition
  split
  · exact .pure (by simp) (Basis.GoodStmt.parts h.good)
  · exact .failAt nofun h.span

theorem mapM_condition {o : Option Stmt} (h : ∀ t ∈ o, B.Simple t) :
    B.From (keys o) n (o.mapM Grammar.condition) fun o => ∀ x ∈ o, B.Good x := by
  cases o with
  | none => exact Basis.passes_none
  | some t =>
    rw [keys_option.2]
    exact (condition (h t rfl)).map (fun x hx y hy => Option.mem_some.mp hy ▸ hx) (by simp)

/-! ### Jumps and calls -/

theorem callStmt (hG : G.Sound B n) (word : Keyword) {make : Expr → Span → Stmt}
    (hmake : ∀ x sp, x.isCall = true → B.Good x → B.GoodStmt (make x sp))
    (hkeys : ∀ x s e, (keys (make x (.range s e))).Sublist (s :: keys x))
    (hP : ∀ c, P c → c.kind ≠ .eof ∧ c.kind ≠ .punct .semi) :
    B.Run P F (n + 1) (fun _ => 1) (G.callStmt word make) B.GoodStmt := by
  refine .startWith hP fun s => hG.expr.bind fun x hx => ?_
  split
  · rename_i hcall
    refine .spanUpTo fun stop _ => .pure ⟨rfl, (hkeys x s stop).trans ?_⟩ (hmake x _ hcall hx.good)
    simp
  · exact .failAt nofun hx.span

theorem returnStmt [Cursor.Before P] (hG : G.Sound B n) :
    B.Run P F (n + 1) (fun _ => 1) G.returnStmt B.GoodStmt := by
  refine .position fun s => .next (.peek fun next _ => ?_)
  refine .bind_ite (R := fun xs : List Expr => ∀ x ∈ xs, B.Read x)
    (Basis.passes_pure (by simp) nofun)
    (hG.exprList.pred.mono fun _ hxs => hxs.2).passes fun xs hxs => .spanFrom fun sp hsp => ?_
  exact .pure (by simp) (Basis.goodStmt_of_parts (.returns xs sp) hsp fun x hx => (hxs x hx).good)

theorem branchLabel (kind : BranchKind) :
    B.Passes n (branchLabel kind) fun label => ∀ id ∈ label, B.kind (.ident id.name) := by
  intro s
  refine .peek fun next hnext => ?_
  split
  · exact .pure (by simp) nofun
  · exact .skip (.prevSpan fun _ _ => .pure (by simp) fun id hid => Option.mem_some.mp hid ▸ hnext)
  · exact .fail nofun
  · exact .pure (by simp) nofun

theorem branchStmt [Cursor.Before P] (kind : BranchKind) :
    B.Run P F (n + 1) (fun _ => 1) (branchStmt kind) B.GoodStmt := by
  refine .position fun s => .next ((branchLabel kind).bind fun label hlabel => ?_)
  exact .spanFrom fun sp _ =>
    .pure (by simp) (Basis.goodStmt_of_parts (.branch kind label sp) hlabel trivial)

theorem emptyHere : B.Passes n emptyHere B.GoodStmt := fun _ =>
  .position fun _ => .pure (by simp) (Basis.goodStmt_of_parts (.empty _) trivial trivial)

/-- A label is followed by a colon, and the statement behind it has some text unless it is the last
one of a block. -/
theorem labeledStmt (hG : G.Sound B n) {name : String} (hname : B.kind (.ident name))
    (hP : ∀ c, P c → c.kind = .ident name ∧ c.kindAt 1 = .punct .colon) :
    B.Run P F (n + 1) (fun _ => 1) (G.labeledStmt name) B.GoodStmt := by
  have hrest : ∀ {K : List Nat} {s : Nat} {sp : Span} (t : Stmt), B.GoodStmt t →
      B.Run (fun _ => True) ⟨s, K ++ keys t⟩ n (fun _ => 0)
        (do return Stmt.labeled ⟨name, sp⟩ t (← spanFrom s)) B.GoodStmt :=
    fun t ht => .spanFrom fun sp hsp =>
      .pure (by simp) (Basis.goodStmt_of_parts (.labeled _ t sp) ⟨hname, hsp⟩ ht)
  refine .position fun s => .advance (W := fun c => c.kind = .punct .colon) (fun c hc => ?_)
    (fun c hc => c.kind_advance.trans (hP c hc).2) (.prevSpan fun sp _ => ?_)
  · rw [(hP c hc).1]
    simp
  · refine .skip (.skipSemis (.check fun b => ?_))
    split
    · exact emptyHere.bind hrest
    · intro c hc hat
      have hstmt := (hG.stmt c.kind hc.1 s).of_imp (P := fun c' => c' = c) fun _ h => h ▸ rfl
      exact Basis.Run.take (F := ⟨s, F.keys⟩) hstmt (fun t ht => hrest t ht.1) c rfl hat

/-! ### Conditions -/

theorem ifHeader (hG : G.Sound B n) :
    B.Passes n G.ifHeader fun h => (∀ t ∈ h.1, B.Simple t) ∧ B.Good h.2 := by
  have hexpr := hG.headerExpr.pred
  intro s
  refine .check fun _ => ?_
  split
  · exact .fail nofun
  · refine .ifAccept (hexpr.bind fun x hx => .pure (by simp) ⟨nofun, hx⟩) ?_
    refine hG.headerStmt.pred.passes.bind fun first hfirst => .ifAccept ?_ ?_
    · exact hexpr.bind fun x hx => .pure (by simp) ⟨fun t ht => Option.mem_some.mp ht ▸ hfirst, hx⟩
    · exact (condition hfirst).bind (H := []) (by simp) fun x hx => .pure (by simp) ⟨nofun, hx⟩

theorem elseBranch (hG : G.Sound B n) :
    B.Passes n G.elseBranch fun t => B.GoodStmt t ∧ t.isElseBranch = true := by
  intro s
  refine .peek fun next _ => ?_
  split
  · exact ((hG.stmt (.keyword .kwIf) nofun s).mono (Nat.le_refl _) (fun _ => Nat.zero_le _)
      fun _ ht => ⟨ht.1, ht.2 rfl⟩).of_imp fun c hc => hc.2
  · exact (hG.block.pred.run (l := fun _ => 1)).map
      (fun b hb => ⟨Basis.goodStmt_of_parts (.block b) trivial hb, rfl⟩) (by simp)
  · exact .fail nofun

theorem ifStmt [Cursor.Before P] (hG : G.Sound B n) :
    B.Run P F (n + 1) (fun _ => 1) G.ifStmt fun t => B.GoodStmt t ∧ t.isElseBranch = true := by
  refine .position fun s => .next (hG.ifHeader.bind fun header hheader => ?_)
  refine hG.block.pred.bind fun body hbody => .acceptAny fun _ => ?_
  refine .bind_ite hG.elseBranch.some Basis.passes_none fun els hels => .spanFrom fun sp _ => ?_
  exact .pure (by simp) ⟨Basis.goodStmt_of_parts (.ifElse header.1 header.2 body els sp)
    ⟨fun t ht => (hheader.1 t ht).fits, fun t ht => (hels t ht).2⟩
    ⟨fun t ht => (hheader.1 t ht).good, hheader.2, hbody, fun t ht => (hels t ht).1⟩, rfl⟩

/-! ### Switches -/

theorem caseType (hG : G.Sound B n) : B.Takes n G.caseType B.Good := fun _ =>
  .position fun _ => hG.anyType.bind fun t ht => .spanFrom fun sp _ =>
    .pure (by simp) (Basis.good_of_parts (.type t sp) trivial rfl ht.every)

theorem caseClause (hG : G.Sound B n) (types : Bool) (before : List CaseClause) :
    B.Takes n (G.caseClause types before) fun c => c.Intact ∧ c.Every B.node := by
  have hcase : B.Takes n (if types then G.caseType else G.expr) B.Good := by
    cases types
    · exact hG.expr.mono fun _ hx => hx.good
    · exact hG.caseType
  intro s
  refine .position fun s => .ifAccept ?_ ?_
  · split
    · exact .prevSpan fun _ hsp => .failAt nofun hsp
    · exact .expect <| hG.stmtList.bind fun body hbody => .spanFrom fun sp _ =>
        .pure (by simp) ⟨trivial, nofun, hbody⟩
  · exact .expect <| (hcase.separated hG.bound).passes.bind fun list hlist => .expect <|
      hG.stmtList.bind fun body hbody => .spanFrom fun sp _ =>
        .pure (by simp) ⟨hlist.1, hlist.2, hbody⟩

theorem caseClauses (hG : G.Sound B n) (types : Bool) :
    B.Takes (n + 1) (G.caseClauses types) fun cs => ∀ c ∈ cs, c.Intact ∧ c.Every B.node := fun _ =>
  .expectFirst <| Basis.Passes.bind
    (Basis.Takes.items (hG.caseClause types) hG.bound (List.forall_mem_nil _)) fun _ hcs =>
      .expect <| .pure (by simp) hcs

theorem switchHeader (hG : G.Sound B n) :
    B.Passes n G.switchHeader fun h => (∀ t ∈ h.1, B.Simple t) ∧ ∀ t ∈ h.2, B.Simple t := by
  have hstmt := hG.headerStmt.pred
  intro s
  refine .check fun brace => ?_
  split
  · exact .pure (by simp) ⟨nofun, nofun⟩
  refine .check fun semi => .bind_ite Basis.passes_none hstmt.passes.some fun first hfirst => ?_
  refine .ifAccept (.check fun brace => ?_) (.pure (by simp) ⟨nofun, hfirst⟩)
  split
  · exact .pure (by simp) ⟨hfirst, nofun⟩
  · exact hstmt.passes.bind fun t ht =>
      .pure (by simp) ⟨hfirst, fun u hu => Option.mem_some.mp hu ▸ ht⟩

/-- What a type switch asks about is known from its header. -/
private theorem subject {x : Expr} {sp : Span} (h : B.Good (.typeAssert x .none sp)) : B.Good x :=
  ((Expr.every_iff B.node (fun _ _ _ => ⟨trivial, rfl⟩) _).mp h).2.1

theorem switchStmt [Cursor.Before P] (hG : G.Sound B n) :
    B.Run P F (n + 1) (fun _ => 1) G.switchStmt B.GoodStmt := by
  refine .position fun s => .next (hG.switchHeader.bind fun header hheader => ?_)
  obtain ⟨init, stmt⟩ := header
  obtain ⟨hinit, hstmt⟩ := hheader
  have hclauses := fun types => (hG.caseClauses types).pred
  have hfits : ∀ t ∈ init, t.fitsHeader = true := fun t ht => (hinit t ht).fits
  have hgood : ∀ t ∈ init, B.GoodStmt t := fun t ht => (hinit t ht).good
  dsimp only
  split
  · rename_i binding x sp sp'
    obtain ⟨hlhs, hrhs⟩ := Basis.GoodStmt.parts (hstmt _ rfl).good
    have hx := subject (List.forall_mem_singleton.mp hrhs)
    have hbinding := (Expr.every_iff B.node (fun _ _ _ => ⟨trivial, rfl⟩) _).mp
      (List.forall_mem_singleton.mp hlhs)
    refine (hclauses true).bind fun cs hcs => .spanFrom fun sp _ => .pure (by simp)
      (Basis.goodStmt_of_parts (.typeSwitch init (some binding) x cs sp)
        ⟨hfits, fun c hc => (hcs c hc).1, ?_⟩ ⟨hgood, hx, fun c hc => (hcs c hc).2⟩)
    exact fun id hid => Option.mem_some.mp hid ▸ hbinding.1.1
  · rename_i x sp
    have hx := subject (Basis.GoodStmt.parts (hstmt _ rfl).good)
    exact (hclauses true).bind fun cs hcs => .spanFrom fun sp _ => .pure (by simp)
      (Basis.goodStmt_of_parts (.typeSwitch init .none x cs sp)
        ⟨hfits, fun c hc => (hcs c hc).1, nofun⟩ ⟨hgood, hx, fun c hc => (hcs c hc).2⟩)
  · refine (mapM_condition hstmt).bind (H := keys init) (by simp) fun tag htag => ?_
    exact (hclauses false).bind fun cs hcs => .spanFrom fun sp _ => .pure (by simp)
      (Basis.goodStmt_of_parts (.switch init tag cs sp) ⟨hfits, fun c hc => (hcs c hc).1⟩
        ⟨hgood, htag, fun c hc => (hcs c hc).2⟩)

theorem commClause (hG : G.Sound B n) : B.Takes n G.commClause fun c =>
    (∀ t ∈ c.comm, t.fitsHeader = true) ∧ c.Every B.node := by
  have hcomm : B.Passes n G.communication B.Simple := by
    refine fun s => hG.simpleStmt.pred.bind fun t ht => ?_
    split
    · exact .pure (by simp) ht
    · exact .failAt nofun ht.span
  have hbody : ∀ {s : Nat} (comm : Option Stmt), (∀ t ∈ comm, B.Simple t) →
      B.Run (fun _ => True) ⟨s, keys comm⟩ n (fun _ => 0) (do
        expect Punct.colon
        let body ← G.stmtList
        return CommClause.mk comm body (← spanFrom s)) fun c =>
          (∀ t ∈ c.comm, t.fitsHeader = true) ∧ c.Every B.node :=
    fun comm hcomm => .expect <| hG.stmtList.bind fun body hbody => .spanFrom fun sp _ =>
      .pure (by simp) ⟨fun t ht => (hcomm t ht).fits, fun t ht => (hcomm t ht).good, hbody⟩
  intro s
  refine .position fun s => .ifAccept (.pure_bind (hbody .none nofun)) ?_
  exact .expect <| hcomm.some.bind hbody

theorem selectStmt [Cursor.Before P] (hG : G.Sound B n) :
    B.Run P F (n + 1) (fun _ => 1) G.selectStmt B.GoodStmt := by
  refine .position fun s => .next (.expect ?_)
  refine Basis.Passes.bind
    (Basis.Takes.items (fun _ => hG.commClause) hG.bound (List.forall_mem_nil _)) fun cs hcs => ?_
  exact .expect <| .spanFrom fun sp _ => .pure (by simp)
    (Basis.goodStmt_of_parts (.select cs sp) (fun c hc => (hcs c hc).1) fun c hc => (hcs c hc).2)

/-! ### Loops -/

theorem loopFrom (hG : G.Sound B n) {init : Option Stmt} (hinit : ∀ t ∈ init, B.Simple t) :
    B.From (keys init) n (G.loopFrom init) (ForHeader.Good B) := fun _ =>
  (hG.exprUnless _).bind fun _ hcond => .expect <| .check fun _ =>
    .bind_ite Basis.passes_none hG.simpleStmt.pred.passes.some fun _ hpost =>
      .pure (by simp) ⟨hinit, hcond, hpost⟩

theorem rangeFrom (hG : G.Sound B n) {x : Expr} {xs : List Expr} (hx : B.Good x)
    (hxs : ∀ y ∈ xs, B.Read y) (define : Bool) :
    B.From (keys x ++ keys xs) n (G.rangeFrom x xs define) (ForHeader.Good B) := by
  have hsome : ∀ {y : Expr}, B.Good y → ∀ z ∈ some y, B.Good z :=
    fun hy z hz => Option.mem_some.mp hz ▸ hy
  intro s
  unfold Grammar.rangeFrom
  split
  · exact hG.expr.bind fun y hy => .pure (by simp) ⟨hsome hx, nofun, hy.good⟩
  · exact hG.expr.bind fun y hy => .pure (by simp)
      ⟨hsome hx, hsome (hxs _ (List.mem_singleton_self _)).good, hy.good⟩
  · exact .failAt nofun (hxs _ (by simp)).span

theorem loopAfter (hG : G.Sound B n) {first : Option Stmt} (h : ∀ t ∈ first, B.Simple t) :
    B.From (keys first) n (G.loopAfter first) (ForHeader.Good B) := fun _ =>
  .ifAccept ((hG.loopFrom h).run (List.Sublist.refl _))
    ((mapM_condition h).bind (H := []) (List.Sublist.refl _) fun _ hcond =>
      .pure (by simp) ⟨nofun, hcond, nofun⟩)

theorem forHeader (hG : G.Sound B n) : B.Passes n G.forHeader (ForHeader.Good B) := by
  intro s
  refine .peek fun next _ => ?_
  split
  · exact .pure (by simp) ⟨nofun, nofun, nofun⟩
  · exact .skip (hG.expr.bind fun x hx => .pure (by simp) ⟨nofun, nofun, hx.good⟩)
  · refine (hG.loopAfter ?_).run (by simp)
    exact nofun
  · refine hG.exprs.pred.opening fun xs s hxs =>
      .mono ?_ (n.sub_le 1) (fun _ => Nat.le_refl _) fun _ h => h
    refine .peek fun next _ => .peekAt fun behind => ?_
    split
    · rename_i hrange
      obtain ⟨hmark, hword⟩ := Bool.and_eq_true_iff.mp hrange
      refine (Basis.Run.advance (W := fun c => c.kind = .keyword .kwRange) ?_ ?_
        (.skip ((hG.rangeFrom hxs.good hxs.more _).run (by simp)))).mono (Nat.le_succ n)
        (fun _ => Nat.le_refl _) fun _ h => h
      · rintro c ⟨⟨-, rfl⟩, -⟩ heof
        rw [heof] at hmark
        cases hmark
      · rintro c ⟨-, rfl⟩
        exact c.kind_advance.trans (beq_iff_eq.mp hword)
    · refine Basis.Run.bindFrom (H := [])
        ((hG.simpleFrom hxs).of_imp fun _ _ => trivial) (List.Sublist.refl _) (by simp) fun t ht =>
          ?_
      exact (hG.loopAfter fun u hu => Option.mem_some.mp hu ▸ ht).run (by simp)

theorem forStmt [Cursor.Before P] (hG : G.Sound B n) :
    B.Run P F (n + 1) (fun _ => 1) G.forStmt B.GoodStmt := by
  refine .position fun s => .next (hG.forHeader.withBodyBrace.bind fun header hheader => ?_)
  cases header with
  | loop init cond post =>
    obtain ⟨hinit, hcond, hpost⟩ := hheader
    exact hG.block.pred.bind fun body hbody => .spanFrom fun sp _ => .pure (by simp)
      (Basis.goodStmt_of_parts (.loop init cond post body sp)
        ⟨fun t ht => (hinit t ht).fits, fun t ht => (hpost t ht).fits⟩
        ⟨fun t ht => (hinit t ht).good, hcond, fun t ht => (hpost t ht).good, hbody⟩)
  | range key value define x =>
    obtain ⟨hkey, hvalue, hx⟩ := hheader
    exact hG.block.pred.bind fun body hbody => .spanFrom fun sp hsp => .pure (by simp)
      (Basis.goodStmt_of_parts (.range key value define x body sp) hsp ⟨hkey, hvalue, hx, hbody⟩)

/-! ### All statements -/

theorem statement (hG : G.Sound B n) (k : TokenKind) (hk : k ≠ .punct .semi) (s : Nat) :
    B.Run (fun c => c.kind = k) ⟨s, []⟩ (n + 1) (fun _ => 1) G.statement fun t =>
      B.GoodStmt t ∧ (k = .keyword .kwIf → t.isElseBranch = true) := by
  have hother : ∀ {P : Cursor → Prop} {p : Parser Stmt} {A : Prop}, ¬ A →
      B.Run P ⟨s, []⟩ (n + 1) (fun _ => 1) p B.GoodStmt →
      B.Run P ⟨s, []⟩ (n + 1) (fun _ => 1) p fun t => B.GoodStmt t ∧ (A → t.isElseBranch = true) :=
    fun hA h => h.mono (Nat.le_refl _) (fun _ => Nat.le_refl _) fun _ ht =>
      ⟨ht, fun hif => absurd hif hA⟩
  have hdecl : ∀ {P : Cursor → Prop} {word : Keyword} (kind : GenKind),
      (∀ c, P c → c.kind = .keyword word) →
      B.Run P ⟨s, []⟩ (n + 1) (fun _ => 1) (Stmt.decl <$> G.genDecl kind) B.GoodStmt :=
    fun kind hP => (hG.genDecl kind fun c hc => by simp [hP c hc]).map
      (fun d hd => Basis.goodStmt_of_parts (.decl d) hd.intact hd.every) (by simp)
  have hsimple := hG.simpleStmt.mono fun _ ht => ht.good
  refine Basis.Run.peek fun next hnext => ?_
  refine Basis.Run.assume (A := next = k) (fun c hc => hc.2.symm.trans hc.1) ?_
  rintro rfl
  split
  · exact hother (by simp) (hdecl _ fun _ hc => hc.2)
  · exact hother (by simp) (hdecl _ fun _ hc => hc.2)
  · exact hother (by simp) (hdecl _ fun _ hc => hc.2)
  · exact hother (by simp) (hG.callStmt _ (fun x sp => Basis.goodStmt_of_parts (.go x sp))
      (by simp [Span.start]) fun _ hc => by simp [hc.2])
  · exact hother (by simp) (hG.callStmt _ (fun x sp => Basis.goodStmt_of_parts (.defer x sp))
      (by simp) fun _ hc => by simp [hc.2])
  · exact hother (by simp) hG.returnStmt
  · exact hother (by simp) (branchStmt _)
  · exact hother (by simp) (branchStmt _)
  · exact hother (by simp) (branchStmt _)
  · exact hother (by simp) (branchStmt _)
  · exact hother (by simp) ((hG.block.run (l := fun _ => 1)).map
      (fun b => Basis.goodStmt_of_parts (.block b) trivial) (by simp))
  · exact hG.ifStmt.mono (Nat.le_refl _) (fun _ => Nat.le_refl _) fun _ ht => ⟨ht.1, fun _ => ht.2⟩
  · exact hother (by simp) hG.switchStmt
  · exact hother (by simp) hG.selectStmt
  · exact hother (by simp) hG.forStmt
  · exact absurd rfl hk
  · refine hother (by simp) (.peekAt fun behind => ?_)
    split
    · rename_i hcolon
      exact hG.labeledStmt hnext fun c hc => ⟨hc.1.2, hc.2.trans (beq_iff_eq.mp hcolon)⟩
    · exact hsimple.run
  · exact hother (by assumption) hsimple.run

/-- The parsers of the next grammar are sound, with a depth of one more. -/
theorem next (hG : G.Sound B n) : G.next.Sound B (n + 1) where
  bound := Nat.succ_le_succ hG.bound
  binary := hG.binaryExpr
  stops _ _ _ _ h := stops_binaryExpr h
  unary := hG.unaryExpr.takes fun _ _ hx => ⟨hx.1, hx.2.2⟩
  type := hG.typeExpr
  element := hG.elementExpr
  stmt := hG.statement

end Sound

theorem sound_none : Grammar.none.Sound B 0 where
  bound := Nat.le_refl 0
  binary _ _ _ := .tooDeep
  stops _ _ _ _ h := by cases h
  unary _ := .tooDeep
  type _ _ _ := .tooDeep
  element _ := .tooDeep
  stmt _ _ _ := .tooDeep

/-- Every grammar is sound. -/
theorem sound_ofBound (B : Basis) (n : Nat) : (Grammar.ofBound n).Sound B n := by
  induction n with
  | zero => exact sound_none
  | succ n ih => exact ih.next

end Grammar

end ServiceSplit
