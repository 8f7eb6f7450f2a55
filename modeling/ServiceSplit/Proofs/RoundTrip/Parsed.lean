import ServiceSplit.Proofs.Parser.Source
import ServiceSplit.Proofs.RoundTrip.Members

/-!
# The types of texts are read back

A type that was read from a source text is written in one text, and that text is read as the same
type, but for places and parentheses. Types with `...` are left out, and so are arrays whose length
is more than a name or a literal.

The proof follows the type: it is read back if the parts are. What the names in a parameter list,
the embedded types of a struct and the terms of a union are like is known from how they were read.
-/

namespace ServiceSplit

open ServiceSplit.Parser

/-! ### What types are made of -/

theorem Field.ShapedParams.areParams {fs : List Field}
    (h : Field.ShapedParams TokenKind.IsRead fs) : Field.AreParams fs :=
  ⟨fun f hf => ⟨fun id hid => (h.names f hf id hid).isPlain nofun, h.tag f hf⟩, h.uniform⟩

theorem Field.ShapedMember.isMember {f : Field} (h : f.ShapedMember TokenKind.IsRead) :
    f.IsMember :=
  ⟨fun id hid => (h.names id hid).isPlain nofun, fun raw hraw => (h.tag raw hraw).isPlain nofun,
    h.embedded⟩

/-- A name or a literal is read from its own text. -/
theorem Expr.Intact.isPlain_leaf {K : Known} (hK : ∀ k, K.kind k → k.IsRead) {e : Expr}
    {k : TokenKind}
    (h : e.Intact K) (hk : e.leaf? = some k) : k.isPlain = true := by
  cases e with
  | ident id =>
    cases hk
    exact (hK _ h.1).isPlain (by simp)
  | lit kind raw span =>
    cases hk
    exact (hK _ h).isPlain (by simp)
  | _ => cases hk

/-! ### Types -/

namespace TypeExpr

/-- The types that a type consists of are read back: it is a union of them, or it is one itself. -/
def Faithful (t : TypeExpr) : Prop :=
  ∃ terms, terms ≠ [] ∧ t = .ofTerms terms ∧ ∀ u ∈ terms, u.ty.ReadsBack

theorem ReadsBack.faithful {t : TypeExpr} (h : t.ReadsBack) : t.Faithful :=
  ⟨[⟨false, t⟩], List.cons_ne_nil _ _, rfl, List.forall_mem_singleton.mpr h⟩

theorem Faithful.readsBack {t : TypeExpr} (h : t.Faithful) (hunion : t.isUnion = false) :
    t.ReadsBack := by
  obtain ⟨terms, -, rfl, hterms⟩ := h
  rcases ofTerms_cases terms with ⟨ty, rfl, -⟩ | ⟨-, heq⟩
  · exact hterms _ (List.mem_singleton_self _)
  · rw [heq] at hunion
    cases hunion

theorem Faithful.embedded {t : TypeExpr} (h : t.Faithful) :
    ∃ ks, (InterfaceElem.embedded t).ReadsAs ks := by
  obtain ⟨terms, hne, rfl, hterms⟩ := h
  obtain ⟨items, rfl, hitems⟩ := exists_zip hterms
  exact ⟨_, InterfaceElem.readsAs_embedded (by simpa using hne) hitems⟩

end TypeExpr

/-- The property of types, expressions and statements that are read from a source text. -/
private abbrev NodeProp.read : NodeProp :=
  (Basis.ofKinds TokenKind.IsRead (.inl rfl)).node

private theorem Field.readsBack {fs : List Field}
    (ih : ∀ f ∈ fs, f.ty.Every .read → f.ty.isSimple = true → f.ty.Faithful)
    (h : ∀ f ∈ fs, f.ty.Every .read) (hunion : ∀ f ∈ fs, f.ty.isUnion = false)
    (hsimple : Field.allSimple fs = true) : ∀ f ∈ fs, f.ty.ReadsBack :=
  fun f hf => (ih f hf (h f hf) (Field.allSimple_iff.mp hsimple f hf)).readsBack (hunion f hf)

private theorem Signature.exists_readsAs {sig : Signature}
    (ihp : ∀ f ∈ sig.params, f.ty.Every .read → f.ty.isSimple = true → f.ty.Faithful)
    (ihr : ∀ f ∈ sig.results, f.ty.Every .read → f.ty.isSimple = true → f.ty.Faithful)
    (h : sig.Every .read) (hshape : sig.Shaped TokenKind.IsRead) (hsimple : sig.isSimple = true) :
    ∃ ks, sig.ReadsAs ks := by
  obtain ⟨params, results⟩ := sig
  obtain ⟨hp, hr⟩ := Bool.and_eq_true_iff.mp hsimple
  exact Signature.readsBack hshape.params.areParams hshape.results.areParams
    (Field.readsBack ihp h.1 hshape.params.ty hp) (Field.readsBack ihr h.2 hshape.results.ty hr)

private theorem TypeExpr.faithful_steps : TreeSteps
    (fun t => t.Every .read → t.isSimple = true → t.Faithful) (fun _ => True) fun _ => True := by
  constructor
  case' toExprSteps => constructor
  case name =>
    intro pkg n args ih h hsimple
    obtain ⟨⟨hpkg, hn, hunion⟩, hargs⟩ := (TypeExpr.every_iff _ _).mp h
    have hall := TypeExpr.allSimple_iff.mp hsimple
    obtain ⟨items, rfl, hitems⟩ := exists_zip fun t ht =>
      (ih t ht (hargs t ht) (hall t ht)).readsBack (hunion t ht)
    exact ReadsBack.faithful ⟨_, readsAs_name (fun p hp => (hpkg p hp).isPlain (by simp))
      (hn.isPlain (by simp)) hitems⟩
  case pointer =>
    intro t ih h hsimple
    obtain ⟨hunion, ht⟩ := (TypeExpr.every_iff _ _).mp h
    obtain ⟨ks, hks⟩ := (ih ht hsimple).readsBack hunion
    exact ReadsBack.faithful ⟨_, hks.pointer⟩
  case sliceType =>
    intro t ih h hsimple
    obtain ⟨hunion, ht⟩ := (TypeExpr.every_iff _ _).mp h
    obtain ⟨ks, hks⟩ := (ih ht hsimple).readsBack hunion
    exact ReadsBack.faithful ⟨_, hks.slice⟩
  case array =>
    intro len t _ ih h hsimple
    obtain ⟨hunion, hlen, ht⟩ := (TypeExpr.every_iff _ _).mp h
    obtain ⟨hleaf, hsimple⟩ := Bool.and_eq_true_iff.mp hsimple
    obtain ⟨ks, hks⟩ := (ih ht hsimple).readsBack hunion
    obtain ⟨k, hk⟩ := Option.isSome_iff_exists.mp hleaf
    obtain ⟨e, rfl, hk⟩ := Option.bind_eq_some_iff.mp hk
    have hshape := ((Expr.every_iff .read (fun _ _ _ => ⟨trivial, rfl⟩) e).mp (hlen e rfl)).1.1
    exact ReadsBack.faithful ⟨_, hks.array hk (hshape.isPlain_leaf (fun _ h => h) hk)⟩
  case map =>
    intro k v ihk ihv h hsimple
    obtain ⟨⟨hunionk, hunionv⟩, hk, hv⟩ := (TypeExpr.every_iff _ _).mp h
    obtain ⟨hsimplek, hsimplev⟩ := Bool.and_eq_true_iff.mp hsimple
    obtain ⟨ks, hks⟩ := (ihk hk hsimplek).readsBack hunionk
    obtain ⟨ls, hls⟩ := (ihv hv hsimplev).readsBack hunionv
    exact ReadsBack.faithful ⟨_, hks.map hls⟩
  case chan =>
    intro dir t ih h hsimple
    obtain ⟨hunion, ht⟩ := (TypeExpr.every_iff _ _).mp h
    obtain ⟨ks, hks⟩ := (ih ht hsimple).readsBack hunion
    exact (hks.chan dir).faithful
  case func =>
    intro sig ihp ihr h hsimple
    obtain ⟨hshape, hsig⟩ := (TypeExpr.every_iff _ _).mp h
    obtain ⟨ks, hks⟩ := Signature.exists_readsAs ihp ihr hsig hshape hsimple
    exact ReadsBack.faithful ⟨_, .func hks⟩
  case struct =>
    intro fs ih h hsimple
    obtain ⟨hshape, hfs⟩ := (TypeExpr.every_iff _ _).mp h
    exact (readsBack_struct (fun f hf => (hshape f hf).isMember)
      (Field.readsBack ih hfs (fun f hf => (hshape f hf).ty) hsimple)).faithful
  case interface =>
    intro es ihm iht h hsimple
    obtain ⟨hshape, hes⟩ := (TypeExpr.every_iff _ _).mp h
    have hall := InterfaceElem.allSimple_iff.mp hsimple
    refine (readsBack_interface fun e he => ?_).faithful
    cases e with
    | method id sig =>
      obtain ⟨hid, hsig⟩ := hshape _ he
      obtain ⟨ihp, ihr⟩ := ihm id sig he
      obtain ⟨ks, hks⟩ := Signature.exists_readsAs ihp ihr (hes _ he) hsig (hall _ he)
      exact ⟨_, InterfaceElem.readsAs_method (hid.isPlain (by simp)) hks⟩
    | embedded t => exact (iht t he (hes _ he) (hall _ he)).embedded
  case ellipsis =>
    intro t ih h hsimple
    cases hsimple
  case union =>
    intro ts ih h hsimple
    obtain ⟨⟨hne, hsingle, hunion⟩, hts⟩ := (TypeExpr.every_iff _ _).mp h
    have hall := UnionTerm.allSimple_iff.mp hsimple
    refine ⟨ts, hne, ?_, fun u hu => (ih u hu (hts u hu) (hall u hu)).readsBack (hunion u hu)⟩
    rcases ofTerms_cases ts with ⟨ty, heq, -⟩ | ⟨-, heq⟩
    · exact absurd heq (hsingle ty)
    · exact heq.symm
  case parenType =>
    intro t ih h hsimple
    obtain ⟨hunion, ht⟩ := (TypeExpr.every_iff _ _).mp h
    obtain ⟨ks, hks⟩ := (ih ht hsimple).readsBack hunion
    exact ReadsBack.faithful ⟨_, hks.paren⟩
  all_goals
    intros
    trivial

/-- A type that is read is read back, unless it has `...` or other lengths than names and
literals. -/
theorem Grammar.readsBack_type {n : Nat} {c c' : Cursor} {t : TypeExpr}
    (hc : ∀ t ∈ c.rest, t.kind.IsRead) (hread : (Grammar.ofBound n).type c = .ok t c')
    (hsimple : t.isSimple = true) : t.ReadsBack := by
  have hsound := Grammar.sound_ofBound (.ofKinds TokenKind.IsRead (.inl rfl)) n
  have hrun := hsound.anyType c.start c trivial (Basis.at_start hc)
  rw [hread] at hrun
  obtain ⟨-, hgood⟩ := hrun
  exact (TypeExpr.faithful_steps.typeExpr t hgood.every hsimple).readsBack hgood.notUnion

/-! ### Types on their own -/

namespace TypeExpr

/-- The type that a text is, if there is nothing behind it but the end of the line. -/
def ofText? (text : String) : Option TypeExpr :=
  match scan text.toList with
  | .ok (tokens, comments) =>
    match (Grammar.ofBound (tokens.length + 1)).type { rest := tokens, comments } with
    | .ok t c => if c.kinds = [.punct .semi, .eof] then some t else none
    | .error .. => none
  | .error _ => none

theorem ReadsBack.exists_ofText? {t : TypeExpr} (h : t.ReadsBack) :
    ∃ text u, t.render = .ok text ∧ ofText? text = some u ∧ u.core = t.core := by
  obtain ⟨ks, hks⟩ := h
  obtain ⟨ps, hprint, hspells⟩ := hks.spells 0
  obtain ⟨tokens, comments, hscan, hkinds⟩ := hspells.scan
  have hlen : ks.length < tokens.length + 1 := by
    rw [← List.length_map (f := Token.kind), hkinds, List.length_append]
    omega
  obtain ⟨u, c, htype, -, hrest, hcore⟩ := hks.takes (tokens.length + 1) hlen (.punct .semi)
    [.eof] rfl
    { rest := tokens, comments } hkinds
  refine ⟨Piece.textOf ps, u, ?_, ?_, hcore⟩
  · rw [render, hprint]
    rfl
  · rw [ofText?, hscan]
    dsimp only
    rw [htype]
    exact if_pos hrest

/-- The type of a text is read back from its own text. -/
theorem render_readsBack {source : String} {tokens : List Token} {comments : List Comment}
    (hscan : scan source.toList = .ok (tokens, comments)) {c c' : Cursor} (hc : c.rest <:+ tokens)
    {n : Nat} {t : TypeExpr} (hread : (Grammar.ofBound n).type c = .ok t c')
    (hsimple : t.isSimple = true) :
    ∃ text u, t.render = .ok text ∧ ofText? text = some u ∧ u.core = t.core := by
  have hwritten : ∀ t ∈ c.rest, t.kind.IsRead := fun t ht => scan_written hscan t (hc.subset ht)
  exact (Grammar.readsBack_type hwritten hread hsimple).exists_ofText?

/-- Whether a text starts with a type that has no `...`, and only names and literals as lengths. -/
def startsSimple (source : String) : Bool :=
  match scan source.toList with
  | .ok (tokens, comments) =>
    match (Grammar.ofBound (tokens.length + 1)).type { rest := tokens, comments } with
    | .ok t _ => t.isSimple
    | .error .. => false
  | .error _ => false

/-- Channels in each other, a function type with grouped parameters and a result in parentheses, an
interface type with a method and a union, and a struct type with an embedded type and a tag. -/
def manyForms : String :=
  "chan (<-chan func(a, b map[string][4]T, c interface \x7b\n\tm(int) (x error)\n\t~int | string\n\x7d) ((
  struct \x7b sync.Mutex; d, e *List[int, K] \x60tag\x60 \x7d)))"

private theorem exists_of_startsSimple {source : String} (h : startsSimple source = true) :
    ∃ tokens comments t c', scan source.toList = .ok (tokens, comments) ∧
      (Grammar.ofBound (tokens.length + 1)).type { rest := tokens, comments } = .ok t c' ∧
      t.isSimple = true := by
  unfold startsSimple at h
  split at h
  · next tokens comments hscan =>
    split at h
    · next t c' htype => exact ⟨tokens, comments, t, c', hscan, htype, h⟩
    · cases h
  · cases h

set_option maxRecDepth 4000 in
private def manyFormsText : {text : String // startsSimple text = true} := by
  refine ⟨manyForms, ?_⟩
  rw [startsSimple, show manyForms.toList = _ from String.toList_ofList]
  decide +kernel

theorem manyForms_readsBack : ∃ tokens comments t c',
    scan manyForms.toList = .ok (tokens, comments) ∧
      (Grammar.ofBound (tokens.length + 1)).type { rest := tokens, comments } = .ok t c' ∧
      t.isSimple = true ∧
      ∃ text u, t.render = .ok text ∧ ofText? text = some u ∧ u.core = t.core := by
  obtain ⟨tokens, comments, t, c', hscan, htype, hsimple⟩ :=
    exists_of_startsSimple manyFormsText.2
  exact ⟨tokens, comments, t, c', hscan, htype, hsimple,
    render_readsBack hscan List.suffix_rfl htype hsimple⟩

end TypeExpr

end ServiceSplit
