import ServiceSplit.Parser.Statements
import ServiceSplit.Proofs.Except
import ServiceSplit.Proofs.Parser.Run

/-!
# What the parsers of types make

The parsers of a grammar are sound if they make trees of the shape that their forms need, from one
token or more, and fail for want of depth only on long texts. The proof follows the grammar: a
parser is sound if the parsers of the parts are. This file has the parsers of types and parameter
lists.
-/

namespace ServiceSplit

open ServiceSplit.Parser

namespace Basis

variable (B : Basis)

/-- What is known of each type, expression and statement that is read. -/
def node : NodeProp where
  type := TypeExpr.Shaped B.kind
  expr x := x.Intact B.toKnown ∧ x.tightOperands = true
  stmt := Stmt.Intact B.toKnown

/-- What is known of a type that is read. -/
structure GoodType (t : TypeExpr) : Prop where
  every : t.Every B.node
  notUnion : t.isUnion = false

/-- What is known of an expression that is read. -/
abbrev Good (x : Expr) : Prop :=
  x.Every B.node

/-- What is known of an expression that is read on its own. -/
structure Read (x : Expr) : Prop where
  good : B.Good x
  span : B.span x.span

/-- What is known of a statement that is read. -/
abbrev GoodStmt (t : Stmt) : Prop :=
  t.Every B.node

/-- What is known of a list of parameters that is read. -/
structure Params (fs : List Field) : Prop where
  shaped : Field.ShapedParams B.kind fs
  every : ∀ f ∈ fs, f.ty.Every B.node

/-- What is known of parameters and results that are read. -/
structure GoodSig (sig : Signature) : Prop where
  shaped : sig.Shaped B.kind
  every : sig.Every B.node

variable {B}

theorem Params.nil : B.Params [] :=
  ⟨⟨nofun, nofun, nofun, .inr nofun⟩, nofun⟩

theorem Params.cons {f : Field} {fs : List Field} (hne : f.names ≠ [])
    (hnames : Ident.AllKnown B.kind f.names) (htag : f.tag = none) (hty : B.GoodType f.ty)
    (hfs : B.Params fs) (hnamed : ∀ g ∈ fs, g.names ≠ []) : B.Params (f :: fs) :=
  ⟨⟨List.forall_mem_cons.mpr ⟨hnames, hfs.shaped.names⟩,
    List.forall_mem_cons.mpr ⟨htag, hfs.shaped.tag⟩,
    List.forall_mem_cons.mpr ⟨hty.notUnion, hfs.shaped.ty⟩,
    .inl (List.forall_mem_cons.mpr ⟨hne, hnamed⟩)⟩, List.forall_mem_cons.mpr ⟨hty.every, hfs.every⟩⟩

theorem Params.sig {params results : List Field} (hp : B.Params params) (hr : B.Params results) :
    B.GoodSig ⟨params, results⟩ :=
  ⟨⟨hp.shaped, hr.shaped⟩, hp.every, hr.every⟩

end Basis

/-! ### Parameter lists -/

namespace ParamEntry

variable {B : Basis}

/-- What is known of an entry of a parameter list. -/
def Good (B : Basis) : ParamEntry → Prop
  | bare id => B.Name id
  | named id ty => B.Name id ∧ B.GoodType ty
  | typed ty span => B.GoodType ty ∧ B.span span

/-- The fields or the error that become of the entries. -/
def Grouped (B : Basis) : Except SyntaxError (List Field) → Prop
  | .ok fields => B.Params fields
  | .error e => e.cause ≠ .tooDeep ∧ B.span e.span

private theorem grouped_named {entries : List ParamEntry} {pending : List Ident}
    (hpending : ∀ id ∈ pending, B.Name id) (hentries : ∀ e ∈ entries, e.Good B) :
    match groupNamed pending entries with
    | .ok fields => B.Params fields ∧ ∀ f ∈ fields, f.names ≠ []
    | .error e => e.cause ≠ .tooDeep ∧ B.span e.span := by
  induction entries generalizing pending with
  | nil =>
    rw [groupNamed]
    cases hlast : pending.getLast? with
    | none => exact ⟨.nil, nofun⟩
    | some last => exact ⟨nofun, (hpending last (List.mem_of_getLast? hlast)).2⟩
  | cons e entries ih =>
    obtain ⟨he, hrest⟩ := List.forall_mem_cons.mp hentries
    cases e with
    | bare id =>
      exact ih (List.forall_mem_append.mpr ⟨hpending, List.forall_mem_singleton.mpr he⟩) hrest
    | typed ty span => exact ⟨nofun, he.2⟩
    | named id ty =>
      have hmore := ih (List.forall_mem_nil _) hrest
      rw [groupNamed]
      cases hgroup : groupNamed [] entries with
      | error e =>
        rw [hgroup] at hmore
        exact hmore
      | ok fields =>
        rw [hgroup] at hmore
        obtain ⟨hfields, hne⟩ := hmore
        have hnames : Ident.AllKnown B.kind (pending ++ [id]) :=
          List.forall_mem_append.mpr
            ⟨fun id hid => (hpending id hid).1, List.forall_mem_singleton.mpr he.1.1⟩
        have hne' : pending ++ [id] ≠ [] := by simp
        exact ⟨.cons hne' hnames rfl he.2 hfields hne, List.forall_mem_cons.mpr ⟨hne', hne⟩⟩

/-- The `go` statements of the entries stay in their order. -/
theorem keys_group {entries : List ParamEntry} {fields : List Field}
    (h : group entries = .ok fields) :
    (keys fields).Sublist (keys entries) := by
  have hnamed : ∀ {entries pending fields}, groupNamed pending entries = .ok fields →
      (keys fields).Sublist (keys entries) := by
    intro entries
    induction entries with
    | nil =>
      intro pending fields h
      rw [groupNamed] at h
      split at h <;> cases h
      exact List.Sublist.refl _
    | cons e entries ih =>
      intro pending fields h
      cases e with
      | bare id => simpa using ih h
      | typed ty span => cases h
      | named id ty =>
        rw [groupNamed] at h
        obtain ⟨more, hmore, h⟩ := exists_of_bind_eq_ok h
        cases h
        simpa using (ih hmore).append_left (keys ty)
  unfold group at h
  split at h
  · exact hnamed h
  · cases h
    suffices heq : keys (entries.map field) = keys entries from heq ▸ List.Sublist.refl _
    induction entries with
    | nil => rfl
    | cons e entries ih => cases e <;> simp_all [field]

theorem grouped_group {entries : List ParamEntry} (hentries : ∀ e ∈ entries, e.Good B) :
    Grouped B (group entries) := by
  unfold group
  split
  · have h := grouped_named (List.forall_mem_nil _) hentries
    cases hgroup : groupNamed [] entries with
    | ok fields =>
      rw [hgroup] at h
      exact h.1
    | error e =>
      rw [hgroup] at h
      exact h
  · rename_i hnamed
    have hall : ∀ f ∈ entries.map field,
        f.names = [] ∧ f.tag = none ∧ f.ty.isUnion = false ∧ f.ty.Every B.node := by
      refine List.forall_mem_map.mpr fun e he => ?_
      have hgood := hentries e he
      cases e with
      | bare id =>
        refine ⟨rfl, rfl, rfl, (TypeExpr.every_iff _ _).mpr ⟨⟨nofun, hgood.1, nofun⟩, nofun⟩⟩
      | typed ty span => exact ⟨rfl, rfl, hgood.1.notUnion, hgood.1.every⟩
      | named id ty => exact absurd (List.any_eq_true.mpr ⟨_, he, rfl⟩) hnamed
    refine ⟨⟨fun f hf => ?_, fun f hf => (hall f hf).2.1, fun f hf => (hall f hf).2.2.1,
      .inr fun f hf => (hall f hf).1⟩, fun f hf => (hall f hf).2.2.2⟩
    rw [(hall f hf).1]
    exact List.forall_mem_nil _

end ParamEntry

/-! ### Grammars -/

namespace Grammar

/-- The parsers of the parts are sound, with a depth of `n`. -/
structure Sound (B : Basis) (n : Nat) (G : Grammar) : Prop where
  bound : n ≤ G.bound
  /-- An expression starts where its first token does. -/
  binary : ∀ least, B.Opens n (G.binary least) fun s x =>
    B.Good x ∧ B.SpanAt s x.span ∧ ∀ p ∈ x.precedence?, least ≤ p
  /-- The parser of binary operators stops only in front of an operator that binds less tightly. -/
  stops : ∀ least c x c', G.binary least c = .ok x c' →
    ∀ op ∈ BinaryOp.ofToken? c'.kind, op.precedence < least
  unary : B.Takes n G.unary fun x => B.Good x ∧ x.isBinary = false
  /-- Where a line of a struct has an embedded type, a type that can be embedded is read. -/
  type : ∀ k k' s, B.Run (fun c => c.kind = k ∧ c.kindAt 1 = k') ⟨s, []⟩ n
    (fun _ => 1) G.type fun t =>
    B.GoodType t ∧ (embeds k k' = true → t.isEmbedded = true)
  element : B.Takes n G.element B.Good
  /-- A statement of some text is read. -/
  stmt : ∀ k, k ≠ .punct .semi → ∀ s, B.Run (fun c => c.kind = k) ⟨s, []⟩ n
    (fun _ => 1) G.stmt fun t =>
    B.GoodStmt t ∧ (k = .keyword .kwIf → t.isElseBranch = true)

variable {B : Basis} {n : Nat} {G : Grammar} {P : Cursor → Prop} {F : Prior}

namespace Sound

theorem expr (hG : G.Sound B n) : B.Takes n G.expr B.Read :=
  (hG.binary 1).takes fun _ _ hx => ⟨hx.1, hx.2.1.known⟩

theorem anyType (hG : G.Sound B n) : B.Takes n G.type B.GoodType :=
  fun s c _ hat => ((hG.type c.kind (c.kindAt 1) s).mono (Nat.le_refl _) (fun _ => Nat.le_refl _)
    fun _ ht => ht.1) c ⟨rfl, rfl⟩ hat

theorem names (hG : G.Sound B n) {first next : SyntaxCause} (hfirst : first ≠ .tooDeep)
    (hnext : next ≠ .tooDeep) :
    B.Takes (n + 1) (G.names first next) fun ids => ids ≠ [] ∧ Ident.AllKnown B.kind ids := fun _ =>
  (Basis.takes_expectIdent hfirst).first fun _ hid =>
    ((Basis.takes_expectIdent hnext).passes.following hG.bound).bind fun _ hids =>
      .pure (by simp)
      ⟨List.cons_ne_nil _ _, List.forall_mem_cons.mpr ⟨hid.1, fun id h => (hids id h).1⟩⟩

theorem typedEntry (hG : G.Sound B n) :
    B.Run P F n (fun _ => 1) (G.typedEntry F.start) (ParamEntry.Good B) :=
  hG.anyType.bind fun _ hty => .spanFrom fun _ hsp => .pure (by simp) ⟨hty, hsp⟩

theorem paramEntry (hG : G.Sound B n) : B.Takes n G.paramEntry (ParamEntry.Good B) := by
  intro s
  refine .position fun s => .get fun c => ?_
  split
  · split
    · exact Basis.Run.expectIdent nofun fun id hid => .pure (by simp) hid
    · exact hG.typedEntry
    · exact Basis.Run.expectIdent nofun fun id hid => hG.anyType.bind fun ty hty =>
        .pure (by simp) ⟨hid, hty⟩
  · exact hG.typedEntry

theorem parameters (hG : G.Sound B n) : B.Takes (n + 1) G.parameters B.Params := by
  intro s
  refine .expectFirst <| (hG.paramEntry.commaList hG.bound).bind fun entries h => ?_
  refine .expect ?_
  have hgroup := ParamEntry.grouped_group h
  split
  · rename_i fields hfields
    rw [hfields] at hgroup
    exact .pure ⟨rfl, by simpa using ParamEntry.keys_group hfields⟩ hgroup
  · rename_i e he
    rw [he] at hgroup
    exact .throw hgroup.1 hgroup.2

theorem signature (hG : G.Sound B n) : B.Takes (n + 1) G.signature B.GoodSig := by
  intro s
  refine hG.parameters.first fun params hparams => .peek fun next _ => ?_
  split
  · exact hG.parameters.pred.bind fun results hresults => .pure (by simp) (hparams.sig hresults)
  split
  · refine hG.anyType.bind fun ty hty => .pure (by simp) (hparams.sig ⟨⟨?_, ?_, ?_, .inr ?_⟩, ?_⟩)
    · exact List.forall_mem_singleton.mpr (List.forall_mem_nil _)
    · exact List.forall_mem_singleton.mpr rfl
    · exact List.forall_mem_singleton.mpr hty.notUnion
    · exact List.forall_mem_singleton.mpr rfl
    · exact List.forall_mem_singleton.mpr hty.every
  · exact .pure (by simp) (hparams.sig .nil)

theorem unionTerm (hG : G.Sound B n) : B.Takes n G.unionTerm fun u => B.GoodType u.ty := fun _ =>
  .acceptAny fun _ => hG.anyType.bind fun _ hty => .pure (by simp) hty

theorem constraint (hG : G.Sound B n) : B.Takes n G.constraint fun t => t.Every B.node := by
  intro s
  refine (hG.unionTerm.separated hG.bound).bind fun terms hterms => ?_
  split
  · exact .pure (by simp) (hterms.2 _ (List.mem_singleton_self _)).every
  · rename_i hne
    refine .pure (by simp) ((TypeExpr.every_iff _ _).mpr ⟨⟨hterms.1, hne, ?_⟩, ?_⟩)
    · exact fun u hu => (hterms.2 u hu).notUnion
    · exact fun u hu => (hterms.2 u hu).every

/-- What is known of type parameters that are read. -/
def TypeParams (B : Basis) (fs : List Field) : Prop :=
  ∀ f ∈ fs, Ident.AllKnown B.kind f.names ∧ f.ty.Every B.node

theorem typeParam (hG : G.Sound B n) :
    B.Takes n G.typeParam fun f => Ident.AllKnown B.kind f.names ∧ f.ty.Every B.node := fun _ =>
  .position fun _ => (hG.names (by nofun) (by nofun)).pred.bind fun _ hids =>
    hG.constraint.bind fun _ hty => .spanFrom fun _ _ => .pure (by simp) ⟨hids.2, hty⟩

theorem typeParams (hG : G.Sound B n) : B.Takes (n + 1) G.typeParams (TypeParams B) := by
  intro s
  refine .expectFirst <| (hG.typeParam.commaList hG.bound).bind fun fields h => ?_
  refine .expect ?_
  split
  · exact .fail nofun
  · exact .pure (by simp) h

theorem typeArgs (hG : G.Sound B n) :
    B.Takes (n + 1) G.typeArgs fun ts => ∀ t ∈ ts, B.GoodType t := fun _ =>
  .expectFirst <| (hG.anyType.commaList hG.bound).bind fun _ h =>
    .expect <| .pure (by simp) h

theorem braced (hG : G.Sound B n) {α : Type} [HasKeys α] {R : α → Prop} {item : Parser α}
    (h : B.Takes n item R) :
    B.Takes (n + 1) (G.braced item) fun as => ∀ a ∈ as, R a := fun _ =>
  .expectFirst <| (h.lines hG.bound).bind fun _ has =>
    .expect <| .pure (by simp) has

theorem fieldTag : B.Passes n fieldTag fun tag => ∀ raw ∈ tag, B.kind (.literal .string raw) := by
  intro s
  refine .peek fun next hnext => ?_
  split
  · refine .skip (.pure (by simp) ?_)
    rintro _ ⟨⟩
    exact hnext
  · exact .pure (by simp) nofun

theorem structField (hG : G.Sound B n) :
    B.Takes n G.structField fun f => f.ShapedMember B.kind ∧ f.ty.Every B.node := by
  intro s
  refine .position fun s => .peek fun k _ => .peekAt fun k' => ?_
  split
  · rename_i hembeds
    have htype := (hG.type k k' s).of_imp (P := fun c => (True ∧ c.kind = k) ∧ c.kindAt 1 = k')
      fun c hc => ⟨hc.1.2, hc.2⟩
    refine .pure_bind (htype.take fun ty hty => fieldTag.bind fun tag htag =>
      .spanFrom fun sp _ => ?_)
    exact .pure (by simp) ⟨⟨List.forall_mem_nil _, htag, hty.1.notUnion, fun _ => hty.2 hembeds⟩,
      hty.1.every⟩
  · refine (hG.names (by nofun) (by nofun)).pred.bind fun ids hids =>
      hG.anyType.passes.bind fun ty hty => ?_
    refine fieldTag.bind fun tag htag => .spanFrom fun sp _ => ?_
    exact .pure (by simp) ⟨⟨hids.2, htag, hty.notUnion, fun h => absurd h hids.1⟩, hty.every⟩

theorem interfaceElem (hG : G.Sound B n) :
    B.Takes n G.interfaceElem fun e => e.Shaped B.kind ∧ e.Every B.node := by
  intro s
  refine .peek fun next _ => .peekAt fun behind => ?_
  split
  · exact .expectIdent nofun fun name hname => hG.signature.pred.passes.bind fun sig hsig =>
      .pure (by simp) ⟨⟨hname.1, hsig.shaped⟩, hsig.every⟩
  · exact hG.constraint.bind fun ty hty => .pure (by simp) ⟨trivial, hty⟩

/-- In front of what may stand behind an embedded type, a name without a package is all of it. -/
theorem namedType (hG : G.Sound B n) {first : String} (hfirst : B.kind (.ident first))
    (k : TokenKind) : B.Run (fun c => c.kind = k) F n (fun _ => 0) (G.namedType first) fun t =>
      B.GoodType t ∧ (embeds (.ident first) k = true → t.isEmbedded = true) := by
  have hargs : ∀ {P : Cursor → Prop} (x : Option String × String),
      (∀ p ∈ x.1, B.kind (.ident p)) → B.kind (.ident x.2) →
      (embeds (.ident first) k = true → x.1 = Option.none → ∀ c, P c → c.kind ≠ .punct .lbracket) →
      B.Run P F n (fun _ => 0) (do
        if (← check Punct.lbracket) && (← peekAt 1) != .punct .rbracket then
          return TypeExpr.name x.1 x.2 (← G.typeArgs)
        else
          return TypeExpr.name x.1 x.2 []) fun t =>
        B.GoodType t ∧ (embeds (.ident first) k = true → t.isEmbedded = true) := by
    rintro P ⟨pkg, name⟩ hpkg hname hbracket
    refine .check fun b => .peekAt fun behind => ?_
    split
    · rename_i hopen
      refine Basis.Run.assume (A := embeds (.ident first) k = true → pkg ≠ Option.none) ?_
        fun hsome => ?_
      · rintro c ⟨⟨hP, rfl⟩, -⟩ hembeds hnone
        exact hbracket hembeds hnone c hP (beq_iff_eq.mp (Bool.and_eq_true_iff.mp hopen).1)
      · refine hG.typeArgs.pred.passes.bind fun args hargs =>
          .pure (by simp) ⟨⟨?_, rfl⟩, fun hembeds => ?_⟩
        · exact (TypeExpr.every_iff _ _).mpr ⟨⟨hpkg, hname, fun a ha => (hargs a ha).notUnion⟩,
            fun a ha => (hargs a ha).every⟩
        · cases pkg with
          | none => exact absurd rfl (hsome hembeds)
          | some p => rfl
    · refine .pure (by simp) ⟨⟨(TypeExpr.every_iff _ _).mpr ⟨⟨hpkg, hname, nofun⟩, nofun⟩, rfl⟩,
        fun _ => ?_⟩
      cases pkg <;> rfl
  refine .ifAccept ?_ ?_
  · refine .expectIdent nofun fun id hid => .pure_bind (hargs (some first, id.name) ?_ hid.1 nofun)
    exact fun p hp => Option.mem_some.mp hp ▸ hfirst
  · refine .pure_bind (hargs (Option.none, first) nofun hfirst ?_)
    rintro hembeds - c ⟨rfl, -⟩ hkind
    rw [hkind] at hembeds
    cases hembeds

theorem bracketType (hG : G.Sound B n) : B.Passes n G.bracketType B.GoodType := by
  intro s
  refine .ifAccept ?_ ?_
  · exact hG.anyType.bind fun ty hty =>
      .pure (by simp) ⟨(TypeExpr.every_iff _ _).mpr ⟨hty.notUnion, hty.every⟩, rfl⟩
  · refine .acceptAny fun open' => ?_
    refine .bind_ite Basis.passes_none hG.expr.passes.withBodyBrace.some fun len hlen => ?_
    refine .expect (hG.anyType.bind fun ty hty => .pure (by simp) ⟨?_, rfl⟩)
    exact (TypeExpr.every_iff _ _).mpr ⟨hty.notUnion, fun x hx => (hlen x hx).good, hty.every⟩

theorem typeExpr (hG : G.Sound B n) (k k' : TokenKind) (s : Nat) :
    B.Run (fun c => c.kind = k ∧ c.kindAt 1 = k') ⟨s, []⟩ (n + 1) (fun _ => 1) G.typeExpr fun t =>
      B.GoodType t ∧ (embeds k k' = true → t.isEmbedded = true) := by
  have hiff := fun t : TypeExpr => (t.every_iff B.node).mpr
  refine Basis.Run.peek fun next hnext => ?_
  refine Basis.Run.assume (A := next = k) (fun c hc => hc.2.symm.trans hc.1.1) ?_
  rintro rfl
  split
  · refine .advance (W := fun c => c.kind = k') (by simp +contextual) ?_ ?_
    · exact fun c hc => c.kind_advance.trans hc.1.2
    · exact (hG.namedType hnext k').mono (Nat.le_refl _) (fun _ => Nat.le_refl _) fun _ ht => ht
  · exact .next (hG.anyType.bind fun ty hty =>
      .pure (by simp) ⟨⟨hiff _ ⟨hty.notUnion, hty.every⟩, rfl⟩, fun _ => rfl⟩)
  · exact .next ((hG.bracketType _).mono (Nat.le_refl _) (fun _ => Nat.le_refl _) fun _ ht =>
      ⟨ht, nofun⟩)
  · exact .next (.expect <| hG.anyType.bind fun key hkey => .expect <|
      hG.anyType.bind fun value hvalue =>
      .pure (by simp) ⟨⟨hiff _ ⟨⟨hkey.notUnion, hvalue.notUnion⟩, hkey.every, hvalue.every⟩, rfl⟩,
        nofun⟩)
  · exact .next (.acceptAny fun _ => hG.anyType.bind fun ty hty =>
      .pure (by simp) ⟨⟨hiff _ ⟨hty.notUnion, hty.every⟩, rfl⟩, nofun⟩)
  · exact .next (.expect <| hG.anyType.bind fun ty hty =>
      .pure (by simp) ⟨⟨hiff _ ⟨hty.notUnion, hty.every⟩, rfl⟩, nofun⟩)
  · exact .next (hG.signature.pred.bind fun sig hsig =>
      .pure (by simp) ⟨⟨hiff _ ⟨hsig.shaped, hsig.every⟩, rfl⟩, nofun⟩)
  · exact .next ((hG.braced hG.structField).pred.bind fun fs hfs =>
      .pure (by simp) ⟨⟨hiff _ ⟨fun f hf => (hfs f hf).1, fun f hf => (hfs f hf).2⟩, rfl⟩, nofun⟩)
  · exact .next ((hG.braced hG.interfaceElem).pred.bind fun es hes =>
      .pure (by simp) ⟨⟨hiff _ ⟨fun e he => (hes e he).1, fun e he => (hes e he).2⟩, rfl⟩, nofun⟩)
  · exact .next (hG.anyType.bind fun ty hty =>
      .pure (by simp) ⟨⟨hiff _ ⟨hty.notUnion, hty.every⟩, rfl⟩, nofun⟩)
  · exact .next (hG.anyType.bind fun ty hty => .expect <|
      .pure (by simp) ⟨⟨hiff _ ⟨hty.notUnion, hty.every⟩, rfl⟩, nofun⟩)
  · exact .fail nofun

end Sound

end Grammar

end ServiceSplit
