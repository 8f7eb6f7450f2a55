import ServiceSplit.Parser.File
import ServiceSplit.Proofs.Parser.Sound.Statements

/-!
# What the parsers of files make

A file is read in rounds. Each round reads one token or more, also if there is an error in it, and
none goes past the end of the text, so that the rounds end there.
-/

namespace ServiceSplit

open ServiceSplit.Parser

/-! ### Tokens up to the end -/

/-- The last token is the end of the text, and no other one is. -/
def EndsOnce (tokens : List Token) : Prop :=
  ∃ body t, tokens = body ++ [t] ∧ t.kind = .eof ∧ ∀ u ∈ body, u.kind ≠ .eof

theorem EndsOnce.of_append {read rest : List Token} (h : EndsOnce (read ++ rest))
    (hread : ∀ t ∈ read, t.kind ≠ .eof) : EndsOnce rest := by
  obtain ⟨body, t, heq, ht, hbody⟩ := h
  rcases List.append_eq_append_iff.mp heq with ⟨more, rfl, rfl⟩ | ⟨more, rfl, hmore⟩
  · exact ⟨more, t, rfl, ht, fun u hu => hbody u (List.mem_append_right _ hu)⟩
  · cases more with
    | nil => exact ⟨[], t, hmore.symm, ht, nofun⟩
    | cons u more =>
      obtain ⟨rfl, -⟩ := List.cons.inj hmore
      exact absurd ht (hread t (by simp))

theorem Cursor.Moves.endsOnce {c c' : Cursor} {read : List Token} (h : c.Moves read c')
    (hc : EndsOnce c.rest) : EndsOnce c'.rest :=
  EndsOnce.of_append (h.rest ▸ hc) h.inside

/-- At the end, no more tokens come. -/
theorem EndsOnce.eq_singleton {c : Cursor} (h : EndsOnce c.rest) (heof : c.kind = .eof) :
    ∃ t, c.rest = [t] := by
  obtain ⟨body, t, hrest, -, hbody⟩ := h
  cases body with
  | nil => exact ⟨t, hrest⟩
  | cons u body => exact absurd (by simpa [Cursor.kind, hrest] using heof) (hbody u (by simp))

/-! ### Declarations -/

/-- What is known of a declaration that is read. -/
structure Basis.GoodDecl (B : Basis) (d : Decl) : Prop where
  every : d.Every B.node
  head : d.HeadIntact B.toKnown

theorem Basis.GoodDecl.intact {B : Basis} {d : Decl} (h : B.GoodDecl d) : d.Intact B.toKnown :=
  ⟨h.every.mono (fun _ ht => ht.named) (fun _ hx => hx.1) fun _ hs => hs, h.head⟩

variable {B : Basis} {n : Nat} {F : Prior} {P : Cursor → Prop}

theorem Basis.passes_takeComments (offset : Nat) : B.Passes n (takeComments offset) fun _ => True :=
  fun _ _ _ _ => ⟨⟨[], .of_eq rfl rfl rfl, Nat.zero_le _, by simp⟩, trivial⟩

theorem Basis.passes_leadingGroup (source : List Char) :
    B.Passes n (leadingGroup source) fun _ => True := fun _ =>
  .position fun _ => (Basis.passes_takeComments _).bind fun _ _ => .pure (by simp) trivial

theorem Basis.takes_importSpec (doc : List Comment) :
    B.Takes n (importSpec doc) fun spec => spec.path.isEmpty = false := by
  have halias : B.Passes n importAlias fun _ => True := by
    intro s
    refine .peek fun next _ => ?_
    split
    · exact .skip (.pure (by simp) trivial)
    · exact .skip (.pure (by simp) trivial)
    · exact .pure (by simp) trivial
  intro s
  refine .position fun s => halias.bindOther fun given _ => .peek fun next _ => ?_
  split
  · refine .skip (.spanFrom fun sp hsp => ?_)
    split
    · exact .failAt nofun hsp
    · rename_i hpath
      exact .pure (by simp) ((Bool.not_eq_true _).mp hpath)
  · exact .fail nofun

/-- An import of a group, with the comments directly above it. -/
theorem Basis.takes_importLine (source : List Char) :
    B.Takes n (do importSpec (← leadingGroup source)) fun spec => spec.path.isEmpty = false :=
    fun _ =>
  (Basis.passes_leadingGroup source).bindOther fun doc _ => (Basis.takes_importSpec doc).run

theorem Basis.takes_packageClause : B.Takes n packageClause B.Name := fun _ =>
  .skipSemis <| .expect <| .expectIdent nofun fun _ hname =>
    Basis.passes_expectTerminator.bind fun _ _ => .pure (by simp) hname

theorem Basis.takes_fileHead : B.Takes n fileHead fun head => B.Name head.2 := fun _ =>
  .skipSemis <| .position fun _ => (Basis.passes_takeComments _).bindOther fun _ _ =>
    Basis.takes_packageClause.bind fun _ hname => .pure (by simp) hname

namespace Grammar

variable {G : Grammar}

namespace Sound

theorem importDecl (hG : G.Sound B n) (source : List Char) :
    B.Takes (n + 1) (G.importDecl source) fun specs =>
    ∀ spec ∈ specs, spec.path.isEmpty = false := by
  have hend : ∀ {F : Prior} (specs : List ImportSpec), (∀ spec ∈ specs, spec.path.isEmpty = false) →
      B.Run (fun _ => True) F n (fun _ => 0) (do
        expectTerminator
        return specs) fun specs => ∀ spec ∈ specs, spec.path.isEmpty = false :=
    fun specs h => Basis.passes_expectTerminator.bind fun _ _ => .pure (by simp) h
  intro s
  refine (Basis.passes_leadingGroup source).bindOther fun doc _ => .expectFirst <| .ifAccept ?_ ?_
  · exact ((Basis.takes_importLine source).lines hG.bound).bind fun specs h =>
      .expect <| .pure_bind (hend specs h)
  · exact (Basis.takes_importSpec doc).bind fun spec h =>
      .pure_bind (hend [spec] (List.forall_mem_singleton.mpr h))

theorem receiver (hG : G.Sound B n) :
    B.Passes n G.receiver fun f => Ident.AllKnown B.kind f.names ∧ f.ty.Every B.node := by
  intro s
  refine .position fun s => hG.parameters.pred.bind fun fields hfields => ?_
  split
  · split
    · exact .pure (by simp) ⟨hfields.shaped.names _ (List.mem_singleton_self _),
        hfields.every _ (List.mem_singleton_self _)⟩
    · exact .spanFrom fun _ hsp => .failAt nofun hsp
  · exact .spanFrom fun _ hsp => .failAt nofun hsp

theorem funcTypeParams (hG : G.Sound B n) (isMethod : Bool) :
    B.Passes n (G.funcTypeParams isMethod) (TypeParams B) := by
  intro s
  refine .check fun bracket => ?_
  split
  · split
    · exact .fail nofun
    · exact hG.typeParams.pred.run
  · exact .pure (by simp) nofun

theorem funcDecl (hG : G.Sound B n) :
    B.Takes (n + 1) G.funcDecl fun f => ∀ directives, B.GoodDecl (.func { f with directives }) := by
  intro s
  refine .position fun s => .expectFirst <| .check fun paren => ?_
  refine .bind_ite hG.receiver.some Basis.passes_none fun recv hrecv => ?_
  refine .expectIdent nofun fun name hname => (hG.funcTypeParams _).bind fun params hparams => ?_
  refine hG.signature.pred.bind fun sig hsig => .check fun brace => ?_
  refine .bind_ite hG.block.pred.passes.some Basis.passes_none fun body hbody =>
    .spanFrom fun sp _ => ?_
  refine .pure (by simp) fun directives => ⟨(Decl.every_iff _ _).mpr ?_, ?_⟩
  · exact ⟨fun f hf => (hrecv f hf).2, fun f hf => (hparams f hf).2, hsig.every, hbody⟩
  · exact ⟨hname, hsig.shaped.named, fun f hf => (hrecv f hf).1, fun f hf => (hparams f hf).1⟩

theorem topDecl (hG : G.Sound B n) (source : List Char) :
    B.Takes (n + 1) (G.topDecl source) B.GoodDecl := by
  have hend : ∀ {F : Prior} (d : Decl), B.GoodDecl d → (keys d).Sublist F.keys →
      B.Run (fun _ => True) F n (fun _ => 0) (do
        expectTerminator
        return d) B.GoodDecl :=
    fun d hd hkeys => Basis.passes_expectTerminator.bind fun _ _ =>
      .pure ⟨rfl, by simpa using hkeys⟩ hd
  have hgen : ∀ {P : Cursor → Prop} {word : Keyword} {F : Prior} (kind : GenKind)
      (directives : List String), (∀ c, P c → c.kind = .keyword word) →
      B.Run P F (n + 1) (fun _ => 1) (do
        let d ← G.genDecl kind
        let decl ← pure (Decl.gen { d with directives })
        expectTerminator
        return decl) B.GoodDecl := by
    intro P word F kind directives hP
    exact Basis.Run.bind (hG.genDecl kind fun c hc => by simp [hP c hc])
      (fun _ => Basis.AtMostOne.lag_le (l := fun _ => 1)) fun d hd =>
      .pure_bind (hend _ ⟨(Decl.every_iff _ _).mpr hd.every, hd.intact.specs, hd.intact.span⟩
        (by simp))
  intro s
  refine (Basis.passes_leadingGroup source).bindOther fun doc _ => .peek fun next _ => ?_
  split
  · exact hG.funcDecl.first fun f hf => .pure_bind (hend (.func _) (hf _) (by simp))
  · exact hgen .var _ fun _ hc => hc.2
  · exact hgen .const _ fun _ hc => hc.2
  · exact hgen .type _ fun _ hc => hc.2
  · exact .fail_bind nofun

end Sound

end Grammar

/-! ### Recovery -/

/-- Behind an error, tokens are read up to the end at most, and one at least if there is one. -/
theorem moves_synchronize {c : Cursor} (h : EndsOnce c.rest) :
    ∃ read, c.Moves read (synchronize c) ∧ (c.kind ≠ .eof → read ≠ []) := by
  have hgo : ∀ (ts : List Token) (c : Cursor), c.rest = ts → ∃ read,
    c.Moves read (synchronize.go c ts) := by
    intro ts
    induction ts with
    | nil => exact fun c _ => ⟨[], .refl c⟩
    | cons t ts ih =>
      intro c hc
      have hrest : c.advance.rest = ts := by simp [Cursor.advance, hc]
      have hnext : t.kind ≠ .eof → ∃ read, c.Moves read (synchronize.go c.advance ts) := by
        intro hne
        obtain ⟨u, hmoves⟩ := Cursor.moves_advance (c := c) (by simpa [Cursor.kind, hc] using hne)
        obtain ⟨read, hmoves'⟩ := ih c.advance hrest
        exact ⟨_, hmoves.trans hmoves'⟩
      rw [synchronize.go]
      split
      · exact ⟨[], .refl c⟩
      all_goals
        first
        | exact hnext (by assumption)
        | rename_i hkind
          split
          · exact ⟨[], .refl c⟩
          · exact hnext (by simp [hkind])
  unfold synchronize
  split
  · rename_i heof
    have heof := beq_iff_eq.mp heof
    obtain ⟨t, ht⟩ := h.eq_singleton heof
    rw [show c.advance.rest = [] by simp [Cursor.advance, ht]]
    exact ⟨[], .refl c, fun hne => absurd heof hne⟩
  · rename_i hne
    obtain ⟨t, hmoves⟩ := Cursor.moves_advance fun heof => hne (beq_iff_eq.mpr heof)
    obtain ⟨read, hmoves'⟩ := hgo _ c.advance rfl
    exact ⟨t :: read, hmoves.trans hmoves', fun _ => List.cons_ne_nil _ _⟩

/-! ### Rounds -/

namespace Reading

/-- What one round makes of the cursor and of what has been read. -/
def round (G : Grammar) (source : List Char) (c : Cursor) (r : Reading) : Cursor × Reading :=
  match c.kind with
  | .punct .semi => (c.advance, r)
  | .keyword .kwImport => readImport G source c r
  | _ => readDecl G source c r

/-- In front of the end there is one more round. -/
theorem read_succ (G : Grammar) (source : List Char) (n : Nat) (c : Cursor) (r : Reading) :
    read G source (n + 1) c r =
      if c.kind = .eof then r else
        read G source n (round G source c r).1 (round G source c r).2 := by
  rw [read, round]
  cases hkind : c.kind with
  | keyword w => cases w <;> simp
  | punct p => cases p <;> simp
  | _ => simp

/-- What is known of what has been read: its imports, declarations and errors. -/
structure Good (B : Basis) (r : Reading) : Prop where
  imports : ∀ spec ∈ r.imports, spec.path.isEmpty = false
  decls : ∀ d ∈ r.decls, B.GoodDecl d
  errors : ∀ e ∈ r.errors, e.cause ≠ .tooDeep ∧ B.span e.span

theorem good_empty : ({} : Reading).Good B :=
  ⟨List.forall_mem_nil _, List.forall_mem_nil _, List.forall_mem_nil _⟩

/-- A part of the file and, behind an error in it, the tokens up to the next one. -/
private theorem advances {α : Type} [HasKeys α] {p : Parser α} {Q : α → Prop} {c : Cursor}
    (hp : B.Takes n p Q) (hc : B.holds c) (hn : c.rest.length < n) (hend : EndsOnce c.rest)
    (hne : c.kind ≠ .eof) :
    match p c with
    | .ok a c' => (∃ read, c.Moves read c' ∧ read ≠ [] ∧
        (B.sorted → (keys a).Sublist (startsOf read))) ∧ Q a
    | .error e c' => (∃ read, c.Moves read (synchronize c') ∧ read ≠ []) ∧
        e.cause ≠ .tooDeep ∧ B.span e.span := by
  have hrun := hp c.start c trivial (Basis.at_start hc)
  cases hpc : p c with
  | ok a c' =>
    rw [hpc] at hrun
    obtain ⟨⟨read, hmoves, hlen, hkeys⟩, ha⟩ := hrun
    exact ⟨⟨read, hmoves, List.ne_nil_of_length_pos hlen, fun hsorted =>
      (hkeys hsorted).trans (startsOf_drop (Nat.zero_le _))⟩, ha⟩
  | error e c' =>
    rw [hpc] at hrun
    obtain ⟨⟨read, hmoves⟩, hdeep, hspan⟩ := hrun
    obtain ⟨read', hmoves', hne'⟩ := moves_synchronize (hmoves.endsOnce hend)
    refine ⟨⟨read ++ read', hmoves.trans hmoves', fun hnil => ?_⟩, fun h => ?_, hspan⟩
    · obtain ⟨rfl, hnil'⟩ := List.append_eq_nil_iff.mp hnil
      refine hne' (fun heof => hne ?_) hnil'
      have hrest : c.rest = c'.rest := hmoves.rest
      rw [← heof, Cursor.kind, Cursor.kind, hrest]
    · exact absurd (hdeep h) (Nat.not_le.mpr hn)

/-- A round reads a token or more, keeps what is known of what has been read, and adds declarations
whose statements start at tokens that it reads. -/
theorem moves_round {G : Grammar} {m : Nat} (hG : G.Sound B m) (source : List Char) {c : Cursor}
    {r : Reading} (hc : B.holds c) (hm : c.rest.length ≤ m) (hend : EndsOnce c.rest)
    (hne : c.kind ≠ .eof) (hr : r.Good B) :
    (∃ read, c.Moves read (round G source c r).1 ∧ read ≠ [] ∧ (B.sorted →
      (keys (round G source c r).2.decls.reverse).Sublist
      (keys r.decls.reverse ++ startsOf read))) ∧
      (round G source c r).2.Good B := by
  have hlen := Nat.lt_succ_of_le hm
  have hsame := fun read (_ : B.sorted) =>
    List.sublist_append_left (keys r.decls.reverse) (startsOf read)
  unfold round
  split
  · obtain ⟨t, hmoves⟩ := Cursor.moves_advance hne
    exact ⟨⟨[t], hmoves, List.cons_ne_nil _ _, hsame _⟩, hr⟩
  · have himport := advances (hG.importDecl source) hc hlen hend hne
    have hlate : ∃ r' : Reading, (if r.decls.isEmpty then r
        else { r with errors := ⟨.lateImport, c.here⟩ :: r.errors } : Reading) = r' ∧ r'.Good B ∧
          r'.decls = r.decls := by
      refine ⟨_, rfl, ?_⟩
      split
      · exact ⟨hr, rfl⟩
      · exact ⟨{ hr with errors := List.forall_mem_cons.mpr ⟨⟨nofun, B.here hc⟩, hr.errors⟩ }, rfl⟩
    obtain ⟨r', hr', hgood, hdecls⟩ := hlate
    rw [← hdecls] at hsame ⊢
    unfold readImport
    rw [hr']
    dsimp only
    split
    · rename_i specs next hparse
      rw [hparse] at himport
      obtain ⟨⟨read, hmoves, hread, -⟩, hspecs⟩ := himport
      refine ⟨⟨read, hmoves, hread, hsame read⟩, { hgood with imports := ?_ }⟩
      exact List.forall_mem_append.mpr ⟨fun i hi => hspecs i (List.mem_reverse.mp hi),
        hgood.imports⟩
    · rename_i e next hparse
      rw [hparse] at himport
      obtain ⟨⟨read, hmoves, hread⟩, herror⟩ := himport
      exact ⟨⟨read, hmoves, hread, hsame read⟩,
        { hgood with errors := List.forall_mem_cons.mpr ⟨herror, hgood.errors⟩ }⟩
  · have hdecl := advances (hG.topDecl source) hc hlen hend hne
    unfold readDecl
    split
    · rename_i d next hparse
      rw [hparse] at hdecl
      obtain ⟨⟨read, hmoves, hread, hkeys⟩, hd⟩ := hdecl
      refine ⟨⟨read, hmoves, hread, ?_⟩,
        { hr with decls := List.forall_mem_cons.mpr ⟨hd, hr.decls⟩ }⟩
      exact fun hsorted => by simpa using (hkeys hsorted).append_left (keys r.decls.reverse)
    · rename_i e next hparse
      rw [hparse] at hdecl
      obtain ⟨⟨read, hmoves, hread⟩, herror⟩ := hdecl
      exact ⟨⟨read, hmoves, hread, hsame read⟩,
        { hr with errors := List.forall_mem_cons.mpr ⟨herror, hr.errors⟩ }⟩

/-- The cursor `c'` and what has been read by then come about in rounds, each of which starts in
front of the end of the text and reads tokens up to there at most. -/
inductive Rounds (G : Grammar) (source : List Char) :
    Cursor → Reading → Cursor → Reading → Prop
  | done (c : Cursor) (r : Reading) : Rounds G source c r c r
  | round {c : Cursor} {r : Reading} {read : List Token} {c' : Cursor} {r' : Reading}
      (front : c.kind ≠ .eof) (moves : c.Moves read (round G source c r).1) (progress : read ≠ [])
      (rest : Rounds G source (round G source c r).1 (round G source c r).2 c' r') :
      Rounds G source c r c' r'

/-- The rounds come to the end of the text, and the statements in the declarations start at tokens
up to there. -/
theorem exists_rounds {G : Grammar} {m : Nat} (hG : G.Sound B m) (source : List Char) {c : Cursor}
    {r : Reading} (hc : B.holds c) (hm : c.rest.length ≤ m) (hend : EndsOnce c.rest) (hr : r.Good B)
    {n : Nat} (hn : c.rest.length ≤ n) :
    ∃ c', Rounds G source c r c' (read G source n c r) ∧ c'.kind = .eof ∧
      (read G source n c r).Good B ∧ (B.sorted →
        (keys (read G source n c r).decls.reverse).Sublist
        (keys r.decls.reverse ++ startsOf c.rest)) := by
  induction n generalizing c r with
  | zero =>
    obtain ⟨body, t, hrest, -⟩ := hend
    simp [hrest] at hn
  | succ n ih =>
    rw [read_succ]
    split
    · rename_i heof
      exact ⟨c, .done c r, heof, hr, fun _ => List.sublist_append_left _ _⟩
    · rename_i hne
      obtain ⟨⟨read, hmoves, hread, hkeys⟩, hr'⟩ := moves_round hG source hc hm hend hne hr
      have hlen := hmoves.length
      have hpos := List.length_pos_iff.mpr hread
      obtain ⟨c', hrounds, heof, hgood, hrest⟩ := ih (B.reads hc hmoves.toReads) (by omega)
        (hmoves.endsOnce hend) hr' (by omega)
      refine ⟨c', .round hne hmoves hread hrounds, heof, hgood, fun hsorted =>
        (hrest hsorted).trans ?_⟩
      rw [hmoves.rest, startsOf_append, ← List.append_assoc]
      exact (hkeys hsorted).append_right _

end Reading

end ServiceSplit
