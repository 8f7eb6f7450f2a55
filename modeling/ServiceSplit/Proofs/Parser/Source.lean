import ServiceSplit.Proofs.Parser.Sound.File
import ServiceSplit.Proofs.Printer.Respacing
import ServiceSplit.Proofs.Token.Tokenization

/-!
# Parsing a source text

The tokens of a source text stand in it one behind the other. Every token but the last is read from
its own text alone, and the last is the end. So the names of a file are words, its statements start
at places of their own, and all that is read of it or found wrong with it stands between characters
of the text.
-/

namespace ServiceSplit

/-! ### Tokens -/

/-- A token that a text has: it is read from its own text, or it is the end. -/
def TokenKind.IsRead (kind : TokenKind) : Prop :=
  kind = .eof ∨ kind.isPlain = true

theorem TokenKind.IsRead.isPlain {kind : TokenKind} (h : kind.IsRead) (hne : kind ≠ .eof) :
    kind.isPlain = true :=
  h.resolve_left hne

/-- The tokens of a source text are read from their own texts. -/
theorem scan_written {cs : List Char} {tokens : List Token} {comments : List Comment}
    (h : scan cs = .ok (tokens, comments)) : ∀ t ∈ tokens, t.kind.IsRead := by
  obtain ⟨kinds, hkinds, hplain, -⟩ := exists_kinds_of_scan h
  intro t ht
  have hmem : t.kind ∈ kinds ++ [.eof] := hkinds ▸ List.mem_map_of_mem ht
  rcases List.mem_append.mp hmem with hmem | hmem
  · exact .inr (hplain t.kind hmem).1
  · exact .inl (List.mem_singleton.mp hmem)

/-! ### Cursors -/

namespace Cursor

variable {c c' : Cursor} {read : List Token}

theorem Reads.suffix (h : c.Reads read c') :
    c'.prev.toList ++ c'.rest <:+ c.prev.toList ++ c.rest := by
  rw [h.rest, h.prev]
  rcases List.eq_nil_or_concat read with rfl | ⟨front, t, rfl⟩
  · exact List.suffix_refl _
  · exact ⟨c.prev.toList ++ front, by simp⟩

theorem InOrder.reads (h : c.InOrder) (hreads : c.Reads read c') : c'.InOrder where
  follow := h.follow.sublist hreads.suffix.sublist
  le t ht := h.le t (hreads.suffix.mem ht)

end Cursor

/-! ### Bases -/

namespace Basis

/-- The kinds of the tokens are known, and nothing of where they stand. -/
def ofKinds (K : TokenKind → Prop) (heof : K .eof) : Basis where
  holds c := ∀ t ∈ c.rest, K t.kind
  sorted := False
  kind := K
  span _ := True
  reads h hreads t ht := h t (hreads.rest ▸ List.mem_append_right _ ht)
  next {c} h := by
    unfold Cursor.kind
    split
    · rename_i t ts hrest
      exact h t (by simp [hrest])
    · exact heof
  inOrder := nofun
  here _ := trivial
  prevSpan _ := trivial
  spanFrom _ _ := trivial
  union _ _ := trivial

/-- Nothing is known of the tokens and of where they stand. -/
def unknown : Basis :=
  ofKinds (fun _ => True) trivial

end Basis

/-- A span goes forward, from one of the places of `S` to another one. -/
structure Span.On (S : Nat → Prop) (sp : Span) : Prop where
  le : sp.start ≤ sp.stop
  start : S sp.start
  stop : S sp.stop

/-- The last token read and the tokens to come stand at places of `S`, one behind the other. -/
structure Cursor.StandsOn (S : Nat → Prop) (c : Cursor) : Prop extends c.InOrder where
  places : ∀ t ∈ c.prev.toList ++ c.rest, S t.start ∧ S t.stop

section Places

variable {S : Nat → Prop} {c c' : Cursor}

theorem Span.On.union {sp sp' : Span} (h : sp.On S) (h' : sp'.On S) : (sp.union sp').On S := by
  cases sp with
  | synthetic => simpa using h'
  | range a b =>
    cases sp' with
    | synthetic => exact h
    | range a' b' =>
      obtain ⟨hle, ha, hb⟩ := h
      obtain ⟨hle', ha', hb'⟩ := h'
      simp only [Span.start, Span.stop] at hle ha hb hle' ha' hb'
      refine ⟨?_, ?_, ?_⟩ <;> simp only [Span.union, Span.start, Span.stop]
      · omega
      · rcases Nat.le_total a a' with h | h <;> simpa [h]
      · rcases Nat.le_total b b' with h | h <;> simpa [h]

namespace Cursor.StandsOn

theorem token (h : c.StandsOn S) {t : Token} (ht : t ∈ c.prev.toList ++ c.rest) : t.span.On S :=
  ⟨h.le t ht, (h.places t ht).1, (h.places t ht).2⟩

theorem prevSpan (h : c.StandsOn S) (h0 : S 0) : c.prevSpan.On S := by
  unfold Cursor.prevSpan
  split
  · rename_i t hprev
    exact h.token (by simp [hprev])
  · exact ⟨Nat.le_refl 0, h0, h0⟩

theorem here (h : c.StandsOn S) (h0 : S 0) : c.here.On S := by
  unfold Cursor.here
  split
  · rename_i t ts hrest
    exact h.token (by simp [hrest])
  · exact h.prevSpan h0

theorem start (h : c.StandsOn S) (h0 : S 0) : S c.start := by
  unfold Cursor.start
  split
  · rename_i t ts hrest
    exact (h.places t (by simp [hrest])).1
  · rename_i t hrest hprev
    exact (h.places t (by simp [hprev])).2
  · exact h0

theorem spanFrom (h : c.StandsOn S) (h' : c'.StandsOn S) (h0 : S 0) :
    (c'.spanFrom c.start).On S := by
  have hstart := h.start h0
  refine ⟨Nat.le_max_right _ _, hstart, ?_⟩
  change S (max c'.prevSpan.stop c.start)
  rcases Nat.le_total c'.prevSpan.stop c.start with hle | hle
  · rwa [Nat.max_eq_right hle]
  · rw [Nat.max_eq_left hle]
    exact (h'.prevSpan h0).stop

end Cursor.StandsOn

/-- The tokens are those of a text, and they stand at places of `S` one behind the other. -/
def Basis.ofText (K : TokenKind → Prop) (heof : K .eof) (S : Nat → Prop) (h0 : S 0) : Basis where
  holds c := (∀ t ∈ c.rest, K t.kind) ∧ c.StandsOn S
  sorted := True
  kind := K
  span := Span.On S
  reads h hreads := ⟨(ofKinds K heof).reads h.1 hreads,
    { h.2.toInOrder.reads hreads with places := fun t ht => h.2.places t (hreads.suffix.mem ht) }⟩
  next h := (ofKinds K heof).next h.1
  inOrder _ h := h.2.toInOrder
  here h := h.2.here h0
  prevSpan h := h.2.prevSpan h0
  spanFrom h h' := h.2.spanFrom h'.2 h0
  union := Span.On.union

end Places

/-! ### Files -/

/-- The tokens that are read from a source text stand between its characters one behind the other,
the last one ends it, and all but semicolons start one behind the other. -/
theorem standsOn_of_scan {source : List Char} {tokens : List Token} {comments : List Comment}
    (h : scan source = .ok (tokens, comments)) :
    Cursor.StandsOn (Text.IsBoundary source) { rest := tokens, comments } ∧ EndsOnce tokens ∧
      (startsOf tokens).Pairwise (· < ·) := by
  obtain ⟨s, ls, hreads, hregular, hproper, htext, rfl, rfl⟩ := Scan.exists_reads h
  have htokenizes := hreads.tokenizes hregular hproper
  rw [htext] at htokenizes
  obtain ⟨front, heq, hfront⟩ := htokenizes.ending
  have hbounds := htokenizes.tokenBounds
  refine ⟨⟨⟨htokenizes.tokensFollow, fun t ht => (hbounds t ht).2.2⟩,
      fun t ht => ⟨(hbounds t ht).1, (hbounds t ht).2.1⟩⟩,
    ⟨front, _, heq, rfl, fun t ht => (hfront t ht).1⟩, List.pairwise_map.mpr ?_⟩
  have hlt : ∀ t ∈ front.filter (·.kind != .punct .semi), t.start < t.stop := by
    intro t ht
    obtain ⟨hmem, hsemi⟩ := List.mem_filter.mp ht
    rcases (hfront t hmem).2 with hwritten | hinserted
    · exact of_decide_eq_true hwritten
    · simp [hinserted.1] at hsemi
  have hfollow := htokenizes.tokensFollow
  rw [heq] at hfollow
  rw [heq, List.filter_append]
  obtain ⟨hfront, -, hlast⟩ := List.pairwise_append.mp hfollow
  refine List.pairwise_append.mpr ⟨?_, (List.pairwise_singleton _ _).filter _, fun t ht u hu => ?_⟩
  · exact (hfront.filter _).imp_of_mem fun ht _ hle => Nat.lt_of_lt_of_le (hlt _ ht) hle
  · exact Nat.lt_of_lt_of_le (hlt t ht)
      (hlast t (List.mem_filter.mp ht).1 u (List.mem_filter.mp hu).1)

/-- A text that cannot be cut into tokens has errors, and they are parts of it. -/
theorem errors_of_scan {source : List Char} {errors : List SyntaxError}
    (h : scan source = .error errors) :
    errors ≠ [] ∧ ∀ e ∈ errors, e.span.On (Text.IsBoundary source) := by
  unfold scan at h
  dsimp only at h
  split at h
  · cases h
  · rename_i hne
    cases h
    refine ⟨fun hnil => hne (List.isEmpty_iff.mpr (List.reverse_eq_nil_iff.mp hnil)),
      fun e he => ?_⟩
    rw [List.mem_reverse, Scan.finish_errors, Scan.foldl_add_errors, List.append_nil,
      List.mem_reverse,
      List.mem_filterMap] at he
    obtain ⟨⟨n, l⟩, hmem, heq⟩ := he
    have hbetween := between_of_mem_placed [] hmem
    rw [List.nil_append, lexemes_text] at hbetween
    cases l with
    | fault cause text =>
      cases heq
      exact ⟨hbetween.le, hbetween.start, hbetween.stop⟩
    | _ => cases heq

/-- What is known of the tree of a list of tokens or of the errors in it. -/
def Basis.Parses (B : Basis) (tokens : List Token) : Except (List SyntaxError) File → Prop
  | .ok file => file.Intact B.toKnown ∧ (B.sorted → (keys file.decls).Sublist (startsOf tokens))
  | .error errors => errors ≠ [] ∧ ∀ e ∈ errors, B.span e.span

/-- What is known of the tokens of a text is known of all that is read from it, and the statements
start at tokens. -/
theorem Basis.parses_parseTokens {B : Basis} {source : List Char} {tokens : List Token}
    {comments : List Comment} (hc : B.holds { rest := tokens, comments }) (hend : EndsOnce tokens) :
    B.Parses tokens (parseTokens source tokens comments) := by
  have hhead := Basis.takes_fileHead (n := tokens.length + 1) _ _ trivial (Basis.at_start hc)
  unfold parseTokens
  split
  · rename_i e c' hfail
    rw [hfail] at hhead
    exact ⟨List.cons_ne_nil _ _, List.forall_mem_singleton.mpr hhead.2.2⟩
  · rename_i constraints package c' hok
    rw [hok] at hhead
    obtain ⟨⟨read, hmoves, -⟩, hpackage⟩ := hhead
    have hlen : tokens.length = read.length + c'.rest.length := hmoves.length
    have hbound : c'.rest.length ≤ tokens.length + 1 := by omega
    obtain ⟨-, -, -, hgood, hkeys⟩ :=
      Reading.exists_rounds (Grammar.sound_ofBound B (tokens.length + 1))
      source (B.reads hc hmoves.toReads) hbound (hmoves.endsOnce hend) Reading.good_empty hbound
    dsimp only
    split
    · refine ⟨⟨hpackage, fun i hi => hgood.imports i (List.mem_reverse.mp hi),
        fun d hd => (hgood.decls d (List.mem_reverse.mp hd)).intact⟩, fun hsorted =>
          (hkeys hsorted).trans ?_⟩
      rw [show tokens = read ++ c'.rest from hmoves.rest, startsOf_append]
      exact List.sublist_append_right _ _
    · rename_i herrors
      refine ⟨fun hnil => herrors ?_, fun e he => (hgood.errors e (List.mem_reverse.mp he)).2⟩
      rw [List.reverse_eq_nil_iff.mp hnil]
      rfl

section

variable {source : String} {file : File} {K : TokenKind → Prop} {S : Nat → Prop}

theorem parses_of_scan (hK : ∀ k, k.IsRead → K k) (hS : ∀ n, Text.IsBoundary source.toList n → S n)
    {tokens : List Token} {comments : List Comment}
    (h : scan source.toList = .ok (tokens, comments)) :
    (Basis.ofText K (hK _ (.inl rfl)) S (hS 0 (Text.isBoundary_zero _))).Parses tokens
      (parseFile source) := by
  obtain ⟨hstands, hend, -⟩ := standsOn_of_scan h
  rw [show parseFile source = parseTokens source.toList tokens comments by rw [parseFile, h]; rfl]
  refine Basis.parses_parseTokens ⟨fun t ht => hK _ (scan_written h t ht), ?_⟩ hend
  exact { hstands with places := fun t ht => (hstands.places t ht).imp (hS _) (hS _) }

/-- The names and literals of a file are tokens of its text, and what stands in it has places
there. -/
theorem intact_of_parseFile (hK : ∀ k, k.IsRead → K k)
    (hS : ∀ n, Text.IsBoundary source.toList n → S n) (h : parseFile source = .ok file) :
    file.Intact ⟨K, Span.On S⟩ := by
  obtain ⟨⟨tokens, comments⟩, hscan, -⟩ := exists_of_bind_eq_ok h
  exact (h ▸ parses_of_scan hK hS hscan).1

/-- A text that is not that of a file has errors, and they are parts of it. -/
theorem errors_of_parseFile {errors : List SyntaxError} (h : parseFile source = .error errors) :
    errors ≠ [] ∧ ∀ e ∈ errors, e.span.On (Text.IsBoundary source.toList) := by
  cases hscan : scan source.toList with
  | error lexical =>
    rw [parseFile, hscan] at h
    cases h
    exact errors_of_scan hscan
  | ok scanned =>
    have hparses := parses_of_scan (K := TokenKind.IsRead) (fun _ h => h) (fun _ h => h) hscan
    rw [h] at hparses
    exact hparses

/-- In a file that is read, each `go` statement, assignment and declaration starts at a place of its
own, and they stand in the order of the text. -/
theorem keys_of_parseFile (h : parseFile source = .ok file) :
    (keys file.decls).Pairwise (· < ·) := by
  obtain ⟨⟨tokens, comments⟩, hscan, -⟩ := exists_of_bind_eq_ok h
  exact (standsOn_of_scan hscan).2.2.sublist
    ((h ▸ parses_of_scan (K := TokenKind.IsRead) (fun _ h => h) (fun _ h => h) hscan).2 trivial)

/-- The name of a function of a file is a word. -/
theorem isPlain_name_of_parseFile (h : parseFile source = .ok file) {f : FuncDecl}
    (hf : .func f ∈ file.decls) : (TokenKind.ident f.name.name).isPlain = true :=
  ((intact_of_parseFile (K := TokenKind.IsRead) (fun _ h => h) (fun _ h => h) h).decls _
    hf).head.1.1.isPlain
    nofun

end

/-! ### Grouping of what was read -/

/-- In an expression that is read, operators have the operands that their precedences give. -/
theorem Grammar.isGrouped_expr {n : Nat} {c c' : Cursor} {e : Expr}
    (h : (Grammar.ofBound n).expr c = .ok e c') : e.IsGrouped := by
  have hrun := (Grammar.sound_ofBound .unknown n).expr _ c trivial
    (Basis.at_start fun _ _ => trivial)
  rw [h] at hrun
  obtain ⟨-, hgood⟩ := hrun
  exact (Expr.isGrouped_iff_every e).mpr
    (Event.AllHave.mono hgood.good (fun _ _ => trivial) (fun _ hx => hx.2) fun _ _ => trivial)

end ServiceSplit
