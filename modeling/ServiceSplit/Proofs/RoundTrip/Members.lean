import ServiceSplit.Proofs.RoundTrip.Signatures

/-!
# Struct and interface types that are read back

Both kinds of types are lines in braces, and a line is read back on its own. A line of a struct type
without a name has an embedded type, and the first two tokens tell. A line of an interface type that
starts with a name and an opening parenthesis is a method; any other one is a type or a union of
types.
-/

namespace ServiceSplit

open ServiceSplit.Parser

/-! ### Lines in braces -/

/-- A line is read back from tokens of the kinds `ks`, and `R` holds of what is read. -/
structure ReadsLine {α : Type} (print : Nat → Printed) (item : Grammar → Parser α)
    (ks : List TokenKind) (R : α → Prop) : Prop where
  spells : ∀ indent, ∃ ps, print indent = .ok ps ∧ Piece.Spells ps ks
  starts : ∃ k more, ks = k :: more ∧ Continues (.punct .rbrace) k ∧ k ≠ .punct .semi
  balanced : ParamEntry.Balanced ks
  takes : ∀ n, ks.length < n → TakesItem (item (Grammar.ofBound n)) (· = .punct .semi) ks R

namespace TypeExpr

/-- The kinds of lines in braces behind a keyword. -/
def bracedKinds (keyword : Keyword) (kss : List (List TokenKind)) : List TokenKind :=
  .keyword keyword :: .punct .lbrace :: (kss.flatMap (· ++ [.punct .semi]) ++ [.punct .rbrace])

section Braced

variable {ι α : Type} (print : ι → Nat → Printed) {item : Grammar → Parser α} (R : ι → α → Prop)
  {items : List (ι × List TokenKind)} {n : Nat}

private theorem takes_braced (h : ∀ i ∈ items, ReadsLine (print i.1) item i.2 (R i.1))
    (hn : ((items.map Prod.snd).flatMap (· ++ [TokenKind.punct .semi])).length < n)
    (rest : List TokenKind) : Takes ((Grammar.ofBound n).braced (item (Grammar.ofBound n)))
      (.punct .lbrace :: ((items.map Prod.snd).flatMap (· ++ [.punct .semi]) ++
      .punct .rbrace :: rest))
      rest (List.Forall₂ (fun i a => R i.1 a) items) := by
  rw [List.flatMap_map] at hn ⊢
  have hitem : ∀ i ∈ items, TakesItem (item (Grammar.ofBound n)) (· = .punct .semi) i.2 (R i.1) ∧
      ∃ k ks, i.2 = k :: ks ∧ Continues (.punct .rbrace) k ∧ k ≠ .punct .semi := by
    intro i hi
    have hle := TokenKind.length_le_flatMap (fun i => i.2 ++ [.punct .semi]) hi
    rw [List.length_append] at hle
    exact ⟨(h i hi).takes n (by omega), (h i hi).starts⟩
  have hcount : items.length ≤ (items.flatMap fun i => i.2 ++ [.punct .semi]).length :=
    TokenKind.length_le_length_flatMap fun i _ => List.append_ne_nil_of_right_ne_nil _ nofun
  refine takes_expect ?_
  rw [Grammar.bound_ofBound]
  exact (takes_lines (by decide) hitem (Nat.lt_of_le_of_lt hcount hn)).bind fun as has =>
    takes_expect (.pure has)

/-- A type of lines in braces is read back if its lines are. -/
private theorem readsAs_braced {t : TypeExpr} {keyword : Keyword}
    (hkeyword : keyword = .kwStruct ∨ keyword = .kwInterface)
    (h : ∀ i ∈ items, ReadsLine (print i.1) item i.2 (R i.1))
    (hprint : ∀ indent pss, ((items.map Prod.fst).mapM fun i => print i (indent + 1)) = .ok pss →
      printType indent t = .ok (layOutBraces keyword indent pss))
    (hembedded : t.isEmbedded = false)
    (htype : ∀ (G : Grammar) ks after,
      Takes (G.braced (item G)) ks after (List.Forall₂ (fun i a => R i.1 a) items) →
        Takes G.typeExpr (.keyword keyword :: ks) after fun u => u.core = t.core) :
    t.ReadsAs (bracedKinds keyword (items.map Prod.snd)) where
  spells indent := by
    obtain ⟨pss, hpss, hspells⟩ := exists_mapM_spells fun i hi => (h i hi).spells (indent + 1)
    refine ⟨_, hprint indent pss (by rwa [List.mapM_map]),
      Piece.Spells.braces hspells keyword ?_ indent⟩
    rcases hkeyword with rfl | rfl <;> decide
  starts := by rcases hkeyword with rfl | rfl <;> exact ⟨_, _, rfl, rfl⟩
  balanced := by
    refine (ParamEntry.Balanced.cons (.append (.flatMap ?_) (.single rfl)) rfl).cons rfl
    intro ks hks
    obtain ⟨i, hi, rfl⟩ := List.mem_map.mp hks
    exact (h i hi).balanced.append (.single rfl)
  named rest := rfl
  entry := .inr nofun
  arrow := nofun
  embeds hembeds := by
    rw [hembedded] at hembeds
    cases hembeds
  result := nofun
  takes n hn k rest _ := by
    cases n with
    | zero => cases hn
    | succ n =>
      simp only [bracedKinds, List.length_cons, List.length_append] at hn
      rw [bracedKinds, List.cons_append, List.cons_append, List.append_assoc]
      exact htype (Grammar.ofBound n) _ _ (takes_braced print R h (by omega) (k :: rest))

end Braced

end TypeExpr

/-! ### Struct types -/

namespace Field

variable {f : Field} {ks : List TokenKind} {n : Nat}

/-- The field is a line of a struct type: its names and its tag are plain, and without a name its
type is embedded. -/
structure IsMember (f : Field) : Prop where
  plain : ∀ id ∈ f.names, (TokenKind.ident id.name).isPlain = true
  tag : ∀ raw ∈ f.tag, (TokenKind.literal .string raw).isPlain = true
  embedded : f.names = [] → f.ty.isEmbedded = true

/-- The type and the tag of a field whose names have been read. -/
def readRest (G : Grammar) (start : Nat) (ids : List Ident) : Parser Field := do
  let ty ← G.type
  let tag ← Grammar.fieldTag
  return ⟨ids, ty, tag, ← spanFrom start⟩

private theorem takes_readRest (h : f.ty.ReadsAs ks) (hn : ks.length < n) (start : Nat)
    (ids : List Ident)
    (hids : (ids.map fun id => Ident.made id.name) = f.names.map fun id => Ident.made id.name)
    (rest : List TokenKind) : Takes (readRest (Grammar.ofBound n) start ids)
      (ks ++ (tagKinds f.tag ++ .punct .semi :: rest)) (.punct .semi :: rest)
      fun g => g.core = f.core := by
  obtain ⟨names, ty, tag, span⟩ := f
  cases tag with
  | none =>
    refine (h.takes n hn (.punct .semi) rest rfl).bind fun u hu => ?_
    refine Takes.bind (R := (· = none)) (takes_peek (.pure rfl)) ?_
    rintro _ rfl
    refine takes_spanFrom fun _ => .pure ?_
    rw [Field.core, Field.core, hu, hids]
  | some raw =>
    refine (h.takes n hn (.literal .string raw) (.punct .semi :: rest) rfl).bind fun u hu => ?_
    refine Takes.bind (R := (· = some raw)) (takes_peek (takes_advance (.pure rfl))) ?_
    rintro _ rfl
    refine takes_spanFrom fun _ => .pure ?_
    rw [Field.core, Field.core, hu, hids]

private theorem embeds_of_startsType {name : String} {k : TokenKind} (hk : k.startsType = true) :
    Grammar.embeds (.ident name) k = false := by
  cases k with
  | punct p => cases p <;> first | rfl | cases hk
  | literal kind raw => cases hk
  | _ => rfl

/-- Names in front of a type. -/
private theorem takes_names {id : Ident} {ids : List Ident} {k : TokenKind}
    (hk : k ≠ .punct .comma) (hn : (nameKinds (id :: ids)).length < n) (rest : List TokenKind)
    (first next : SyntaxCause) : Takes ((Grammar.ofBound n).names first next)
      (nameKinds (id :: ids) ++ k :: rest) (k :: rest)
      fun new => (new.map fun id => Ident.made id.name) =
        (id :: ids).map fun id => Ident.made id.name := by
  have hkinds : nameKinds (id :: ids) =
      .ident id.name :: ids.flatMap fun id => [.punct .comma, .ident id.name] := by
    rw [nameKinds, List.map_cons, TokenKind.join, List.flatMap_map]
    rfl
  have hcount : ids.length < n := by
    have hle :
      ids.length ≤ (ids.flatMap fun id => [TokenKind.punct .comma, .ident id.name]).length :=
      TokenKind.length_le_length_flatMap fun _ _ => List.cons_ne_nil _ _
    rw [hkinds, List.length_cons] at hn
    omega
  rw [hkinds, List.cons_append]
  refine (takes_expectIdent first).bind fun id' hid => ?_
  rw [Grammar.bound_ofBound]
  have hrest : Takes (following (.punct .comma) (expectIdent next) n)
      (ids.flatMap (fun id => [.punct .comma, .ident id.name]) ++ k :: rest) (k :: rest)
      (List.Forall₂ (fun id new => new.name = id.name) ids) :=
    takes_following hk (fun id _ l more _ => takes_expectIdent next) hcount
  refine hrest.bind fun new hnew => .pure ?_
  rw [List.map_cons, List.map_cons, hid]
  exact congrArg _ (map_eq_of_forall₂ (hnew.imp fun id new h => congrArg Ident.made h))

private theorem exists_embeds (h : f.ty.ReadsAs ks) (hembedded : f.ty.isEmbedded = true)
    (tag : Option String) (rest : List TokenKind) :
    ∃ a b more, ks ++ (tagKinds tag ++ .punct .semi :: rest) = a :: b :: more ∧
      Grammar.embeds a b = true := by
  cases tag with
  | none => exact h.embeds hembedded (.punct .semi) rest (.inl rfl)
  | some raw => exact h.embeds hembedded (.literal .string raw) _ (.inr ⟨raw, rfl⟩)

private theorem exists_names (id : Ident) (ids : List Ident) {k : TokenKind}
    (hk : k.startsType = true) (rest : List TokenKind) :
    ∃ b more, nameKinds (id :: ids) ++ k :: rest = .ident id.name :: b :: more ∧
      Grammar.embeds (.ident id.name) b = false := by
  cases ids with
  | nil => exact ⟨k, rest, rfl, embeds_of_startsType hk⟩
  | cons next ids => exact ⟨.punct .comma, _, rfl, rfl⟩

theorem readsLine (hf : f.IsMember) (h : f.ty.ReadsAs ks) :
    ReadsLine (fun indent => printField indent f) Grammar.structField (f.kinds ks)
      fun g => g.core = f.core where
  spells indent := exists_printField hf.plain hf.tag h indent
  starts := by
    obtain ⟨k, more, rfl, hk⟩ := h.starts
    cases hnames : f.names with
    | nil =>
      rw [kinds, hnames]
      refine ⟨k, _, rfl, TypeExpr.continues_of_startsType hk rfl, ?_⟩
      rintro rfl
      cases hk
    | cons id ids =>
      rw [kinds, hnames]
      exact ⟨.ident id.name, _, rfl, ⟨by simp, by simp⟩, by simp⟩
  balanced := balanced_kinds h.balanced
  takes n hn k rest hk := by
    subst hk
    rw [kinds, List.length_append, List.length_append] at hn
    have hrest := fun start ids hids => takes_readRest (n := n) h (by omega) start ids hids rest
    rw [kinds, List.append_assoc, List.append_assoc]
    cases hnames : f.names with
    | nil =>
      rw [hnames] at hrest
      obtain ⟨a, b, more, hcons, hembeds⟩ := exists_embeds h (hf.embedded hnames) f.tag rest
      have hread := fun start => hrest start [] rfl
      rw [hcons] at hread
      rw [show nameKinds [] = [] from rfl, List.nil_append, hcons]
      refine takes_position fun start => takes_peek (takes_peekAt_one ?_)
      rw [hembeds, if_pos rfl]
      exact hread start
    | cons id ids =>
      rw [hnames] at hrest hn
      obtain ⟨first, more, rfl, hfirst⟩ := h.starts
      obtain ⟨b, others, hcons, hembeds⟩ := exists_names id ids hfirst
        (more ++ (tagKinds f.tag ++ .punct .semi :: rest))
      have hcomma : first ≠ .punct .comma := by
        rintro rfl
        cases hfirst
      have hlen : (nameKinds (id :: ids)).length < n := by omega
      have hread := takes_names hcomma hlen (more ++ (tagKinds f.tag ++ .punct .semi :: rest))
        .expectedFieldName .expectedFieldNameAfterComma
      rw [hcons] at hread
      rw [List.cons_append, hcons]
      refine takes_position fun start => takes_peek (takes_peekAt_one ?_)
      rw [hembeds, if_neg Bool.false_ne_true]
      exact hread.bind fun new hnew => hrest start new hnew

end Field

theorem TypeExpr.readsBack_struct {fs : List Field} (hfs : ∀ f ∈ fs, f.IsMember)
    (h : ∀ f ∈ fs, f.ty.ReadsBack) : (TypeExpr.struct fs).ReadsBack := by
  have hlines : ∀ f ∈ fs, ∃ ks, ReadsLine (fun indent => printField indent f) Grammar.structField ks
      fun g => g.core = f.core := by
    intro f hf
    obtain ⟨ks, hks⟩ := h f hf
    exact ⟨_, Field.readsLine (hfs f hf) hks⟩
  obtain ⟨items, rfl, hitems⟩ := exists_zip hlines
  refine ⟨_, readsAs_braced (fun f indent => printField indent f) (fun (f g : Field) =>
    g.core = f.core)
    (.inl rfl) hitems (fun indent pss hpss => ?_) rfl fun G ks after hbraced => ?_⟩
  · rw [printType, Field.printFields_eq_mapM, hpss]
    rfl
  · refine takes_peek (takes_advance (hbraced.bind fun gs hgs => .pure ?_))
    rw [TypeExpr.core, TypeExpr.core, Field.cores_eq_map, Field.cores_eq_map, map_eq_of_forall₂ hgs,
      List.map_map]
    rfl

/-! ### Unions -/

namespace UnionTerm

/-- The kinds of the tokens of a term, with those of its type. -/
def kinds (term : UnionTerm) (ks : List TokenKind) : List TokenKind :=
  if term.tilde then .punct .tilde :: ks else ks

/-- The pieces of a term. -/
def print (indent : Nat) (term : UnionTerm) : Printed := do
  let ty ← printType indent term.ty
  return if term.tilde then .mark .tilde :: ty else ty

theorem printTerms_eq_mapM (indent : Nat) (terms : List UnionTerm) :
    printTerms indent terms = terms.mapM (print indent) := by
  induction terms with
  | nil => rfl
  | cons term terms ih =>
    obtain ⟨tilde, ty⟩ := term
    rw [printTerms, List.mapM_cons, ih, print]
    simp

variable {term : UnionTerm} {ks : List TokenKind} {n : Nat}

theorem exists_print (h : term.ty.ReadsAs ks) (indent : Nat) :
    ∃ ps, print indent term = .ok ps ∧ Piece.Spells ps (term.kinds ks) := by
  obtain ⟨tilde, ty⟩ := term
  obtain ⟨ps, hprint, hspells⟩ := h.spells indent
  refine ⟨if tilde then .mark .tilde :: ps else ps, by rw [print, hprint]; rfl, ?_⟩
  cases tilde with
  | false => exact hspells
  | true => exact hspells.cons (Piece.initial_punct (by decide) (by decide) (by decide)) (by decide)

theorem kinds_ne_nil (h : term.ty.ReadsAs ks) : term.kinds ks ≠ [] := by
  obtain ⟨first, more, rfl, -⟩ := h.starts
  rw [kinds]
  split <;> exact List.cons_ne_nil _ _

theorem takes (h : term.ty.ReadsAs ks) (hn : (term.kinds ks).length < n) :
    TakesItem (Grammar.ofBound n).unionTerm (·.endsType = true) (term.kinds ks) fun new =>
      new.tilde = term.tilde ∧ new.ty.core = term.ty.core := by
  intro k rest hk
  obtain ⟨tilde, ty⟩ := term
  cases tilde with
  | false =>
    have hread := h.takes n hn k rest hk
    obtain ⟨first, more, rfl, hfirst⟩ := h.starts
    refine takes_accept_of_ne ?_ (hread.bind fun u hu => .pure ⟨rfl, hu⟩)
    rintro rfl
    cases hfirst
  | true =>
    have hlen : ks.length < n := Nat.lt_of_succ_lt hn
    exact takes_accept ((h.takes n hlen k rest hk).bind fun u hu => .pure ⟨rfl, hu⟩)

end UnionTerm

namespace TypeExpr

/-- The type of a line with the terms of a union: a term alone without a tilde is a type. -/
def ofTerms : List UnionTerm → TypeExpr
  | [⟨false, ty⟩] => ty
  | terms => union terms

/-- Terms with the kinds of the tokens of their types. -/
abbrev SpelledTerms := List (UnionTerm × List TokenKind)

/-- The kinds of the tokens of a union. -/
def termKinds (terms : SpelledTerms) : List TokenKind :=
  TokenKind.join (.punct .pipe) (terms.map fun t => t.1.kinds t.2)

variable {terms : SpelledTerms} {n : Nat}

theorem ofTerms_cases (terms : List UnionTerm) :
    (∃ ty, terms = [⟨false, ty⟩] ∧ ofTerms terms = ty) ∨
      (∀ ty, terms ≠ [⟨false, ty⟩]) ∧ ofTerms terms = union terms := by
  unfold ofTerms
  split
  · next ty => exact .inl ⟨ty, rfl, rfl⟩
  · next hne => exact .inr ⟨hne, rfl⟩

/-- A term was read for another one. -/
private def SameTerm (a b : UnionTerm) : Prop :=
  b.tilde = a.tilde ∧ b.ty.core = a.ty.core

private theorem core_ofTerms {as bs : List UnionTerm} (h : List.Forall₂ SameTerm as bs) :
    (ofTerms bs).core = (ofTerms as).core := by
  rcases ofTerms_cases as with ⟨ty, rfl, heq⟩ | ⟨has, heq⟩
  · cases h with
    | @cons _ b _ bs hb hbs =>
      cases hbs
      obtain ⟨tilde, u⟩ := b
      obtain ⟨rfl, hu⟩ := hb
      exact hu
  · have hbs : ofTerms bs = union bs := by
      rcases ofTerms_cases bs with ⟨ty, rfl, -⟩ | ⟨-, heq'⟩
      · cases h with
        | @cons a _ as _ ha has' =>
          cases has'
          obtain ⟨tilde, u⟩ := a
          obtain ⟨rfl, -⟩ := ha
          exact absurd rfl (has u)
      · exact heq'
    rw [heq, hbs, TypeExpr.core, TypeExpr.core, UnionTerm.cores_eq_map, UnionTerm.cores_eq_map]
    refine congrArg _ (map_eq_of_forall₂ (h.imp fun a b hab => ?_))
    rw [hab.1, hab.2]

theorem takes_constraint (hne : terms ≠ []) (h : ∀ t ∈ terms, t.1.ty.ReadsAs t.2)
    (hn : (termKinds terms).length < n) :
    TakesItem (Grammar.ofBound n).constraint (· = .punct .semi) (termKinds terms) fun u =>
      u.core = (ofTerms (terms.map Prod.fst)).core := by
  rintro _ rest rfl
  have hitem : ∀ t ∈ terms, TakesItem (Grammar.ofBound n).unionTerm
      (fun k => k = .punct .pipe ∨ k = .punct .semi) (t.1.kinds t.2) (SameTerm t.1) := by
    intro t ht k rest hk
    have hlen := TokenKind.length_le_join (.punct .pipe)
      (List.mem_map_of_mem (f := fun t => t.1.kinds t.2) ht)
    refine UnionTerm.takes (h t ht) (Nat.lt_of_le_of_lt hlen hn) k rest ?_
    rcases hk with rfl | rfl <;> rfl
  have hcount : terms.length ≤ (termKinds terms).length := by
    have hle := TokenKind.length_le_length_join (.punct .pipe)
      (List.forall_mem_map.mpr fun t ht => UnionTerm.kinds_ne_nil (h t ht))
    rwa [List.length_map] at hle
  cases terms with
  | nil => exact absurd rfl hne
  | cons t terms =>
    have hterms :
      Takes (separated (Grammar.ofBound n).bound (.punct .pipe) (Grammar.ofBound n).unionTerm)
        (termKinds (t :: terms) ++ .punct .semi :: rest) (.punct .semi :: rest)
        (List.Forall₂ (fun t a => SameTerm t.1 a) (t :: terms)) := by
      rw [List.length_cons] at hcount
      rw [Grammar.bound_ofBound]
      exact takes_separated (by decide) hitem (by omega)
    refine hterms.bind fun as has => ?_
    have hcore := core_ofTerms (List.forall₂_map_left_iff.mpr has)
    rcases ofTerms_cases as with ⟨ty, rfl, -⟩ | ⟨hne, heq⟩
    · exact .pure hcore
    · rw [heq] at hcore
      split
      · next ty => exact absurd rfl (hne ty)
      · exact .pure hcore

theorem exists_print_ofTerms (hne : terms ≠ []) (h : ∀ t ∈ terms, t.1.ty.ReadsAs t.2)
    (indent : Nat) : ∃ ps, printType indent (ofTerms (terms.map Prod.fst)) = .ok ps ∧
      Piece.Spells ps (termKinds terms) := by
  rcases ofTerms_cases (terms.map Prod.fst) with ⟨ty, heq, heq'⟩ | ⟨-, heq⟩
  · obtain ⟨⟨term, ks⟩, rfl, rfl⟩ := List.map_eq_singleton_iff.mp heq
    rw [heq']
    simpa [termKinds, TokenKind.join, UnionTerm.kinds] using
      (h _ List.mem_cons_self).spells indent
  · obtain ⟨pss, hprint, hspells⟩ := exists_mapM_spells fun t ht =>
      UnionTerm.exists_print (h t ht) indent
    refine ⟨layOutUnion pss, ?_, .union ?_ hspells⟩
    · have hterms : printTerms indent (terms.map Prod.fst) = .ok pss := by
        rw [UnionTerm.printTerms_eq_mapM, List.mapM_map]
        exact hprint
      rw [heq, printType, if_neg (by simpa using hne), hterms]
      rfl
    · rintro rfl
      cases terms with
      | nil => exact hne rfl
      | cons t terms => cases hspells

end TypeExpr

/-! ### Interface types -/

namespace InterfaceElem

/-- The pieces of a line of an interface type. -/
def print (indent : Nat) : InterfaceElem → Printed
  | method name sig => do
    let name ← name.print
    let sig ← printSignature indent sig
    return name ++ sig
  | embedded ty => printType indent ty

theorem printElems_eq_mapM (indent : Nat) (es : List InterfaceElem) :
    printElems indent es = es.mapM (print indent) := by
  induction es with
  | nil => rfl
  | cons e es ih =>
    cases e with
    | method name sig =>
      rw [printElems, List.mapM_cons, ih, print]
      simp
    | embedded ty => rw [printElems, List.mapM_cons, ih, print]

/-- The line is read back from tokens of the kinds `ks`. -/
abbrev ReadsAs (e : InterfaceElem) (ks : List TokenKind) : Prop :=
  ReadsLine (fun indent => e.print indent) Grammar.interfaceElem ks fun e' => e'.core = e.core

theorem readsAs_method {name : Ident} {sig : Signature} {ks : List TokenKind}
    (hname : (TokenKind.ident name.name).isPlain = true) (h : sig.ReadsAs ks) :
    (method name sig).ReadsAs (.ident name.name :: ks) where
  spells indent := by
    obtain ⟨ps, hprint, hspells⟩ := h.spells indent
    refine ⟨.ident name.name :: .mark .lparen :: ps, ?_, ?_⟩
    · have hsome : name.name.isEmpty = false := TokenKind.isEmpty_text_of_isPlain hname
      rw [print, hprint, Ident.print, hsome]
      rfl
    · exact .cons_word hname (fun _ => rfl) (Piece.head?_ne hname (by simp)) (.inl rfl) hspells
  starts := ⟨_, _, rfl, ⟨by simp, by simp⟩, by simp⟩
  balanced := h.balanced.cons rfl
  takes n hn k rest hk := by
    subst hk
    have hsig := h.takes n (Nat.lt_of_succ_lt hn) (.punct .semi) rest rfl
    obtain ⟨more, rfl⟩ := h.starts
    rw [List.cons_append, List.cons_append]
    refine takes_peek (takes_peekAt_one ?_)
    rw [beq_self_eq_true, Bool.and_true, if_pos (show (TokenKind.ident _).isIdent = true from rfl)]
    refine (takes_expectIdent .expectedName).bind fun id hid => hsig.bind fun s hs => .pure ?_
    rw [core, core, hid, hs]

/-- The first two tokens of a type are not those of a method. -/
private theorem exists_not_method {t : TypeExpr} {ks : List TokenKind} (h : t.ReadsAs ks)
    {k : TokenKind} (hk : k ≠ .punct .lparen) (rest : List TokenKind) :
    ∃ a b more, ks ++ k :: rest = a :: b :: more ∧ (a.isIdent && b == .punct .lparen) = false := by
  rcases h.entry with ⟨name, rfl, -⟩ | hentry
  · exact ⟨_, k, rest, rfl, beq_eq_false_iff_ne.mpr hk⟩
  · obtain ⟨first, more, rfl, -⟩ := h.starts
    cases more with
    | nil =>
      refine ⟨first, k, rest, rfl, ?_⟩
      rw [beq_eq_false_iff_ne.mpr hk, Bool.and_false]
    | cons b more =>
      refine ⟨first, b, _, rfl, ?_⟩
      cases first with
      | ident name =>
        refine beq_eq_false_iff_ne.mpr ?_
        rintro rfl
        cases hentry name _ rfl (.punct .comma) [] (.inl rfl)
      | _ => rfl

/-- So are not those of a union. -/
private theorem exists_not_method_of_terms {terms : TypeExpr.SpelledTerms} (hne : terms ≠ [])
    (h : ∀ t ∈ terms, t.1.ty.ReadsAs t.2) (rest : List TokenKind) :
    ∃ a b more, TypeExpr.termKinds terms ++ .punct .semi :: rest = a :: b :: more ∧
      (a.isIdent && b == .punct .lparen) = false := by
  cases terms with
  | nil => exact absurd rfl hne
  | cons t terms =>
    obtain ⟨⟨tilde, ty⟩, ks⟩ := t
    obtain ⟨k, more, hmore, hk⟩ : ∃ k more, (terms.map fun t => t.1.kinds t.2).flatMap
        (.punct .pipe :: ·) ++ .punct .semi :: rest = k :: more ∧ k ≠ .punct .lparen := by
      cases terms with
      | nil | cons t terms => exact ⟨_, _, rfl, nofun⟩
    rw [TypeExpr.termKinds, List.map_cons, TokenKind.join, List.append_assoc, hmore]
    cases tilde with
    | false => exact exists_not_method (h _ List.mem_cons_self) hk more
    | true =>
      obtain ⟨first, others, hks, -⟩ := (h _ List.mem_cons_self).starts
      dsimp only at hks
      subst hks
      exact ⟨_, _, _, rfl, rfl⟩

private theorem exists_first_of_terms {terms : TypeExpr.SpelledTerms} (hne : terms ≠ [])
    (h : ∀ t ∈ terms, t.1.ty.ReadsAs t.2) : ∃ k more, TypeExpr.termKinds terms = k :: more ∧
      Continues (.punct .rbrace) k ∧ k ≠ .punct .semi := by
  cases terms with
  | nil => exact absurd rfl hne
  | cons t terms =>
    obtain ⟨⟨tilde, ty⟩, ks⟩ := t
    obtain ⟨first, others, hks, hfirst⟩ := (h _ List.mem_cons_self).starts
    dsimp only at hks
    subst hks
    cases tilde with
    | true => exact ⟨_, _, rfl, ⟨nofun, nofun⟩, nofun⟩
    | false =>
      refine ⟨first, _, rfl, TypeExpr.continues_of_startsType hfirst rfl, ?_⟩
      rintro rfl
      cases hfirst

theorem readsAs_embedded {terms : TypeExpr.SpelledTerms} (hne : terms ≠ [])
    (h : ∀ t ∈ terms, t.1.ty.ReadsAs t.2) :
    (embedded (.ofTerms (terms.map Prod.fst))).ReadsAs (TypeExpr.termKinds terms) where
  spells indent := TypeExpr.exists_print_ofTerms hne h indent
  starts := exists_first_of_terms hne h
  balanced := by
    refine .join (List.forall_mem_map.mpr fun t ht => ?_) rfl
    rw [UnionTerm.kinds]
    split
    · exact (h t ht).balanced.cons rfl
    · exact (h t ht).balanced
  takes n hn k rest hk := by
    subst hk
    have hread := TypeExpr.takes_constraint hne h hn (.punct .semi) rest rfl
    obtain ⟨a, b, more, hcons, hmethod⟩ := exists_not_method_of_terms hne h rest
    rw [hcons] at hread ⊢
    refine takes_peek (takes_peekAt_one ?_)
    rw [hmethod, if_neg Bool.false_ne_true]
    exact hread.bind fun u hu => .pure (congrArg embedded hu)

end InterfaceElem

theorem TypeExpr.readsBack_interface {es : List InterfaceElem}
    (h : ∀ e ∈ es, ∃ ks, e.ReadsAs ks) : (TypeExpr.interface es).ReadsBack := by
  obtain ⟨items, rfl, hitems⟩ := exists_zip h
  refine ⟨_, readsAs_braced (fun e indent => e.print indent)
    (fun (e e' : InterfaceElem) => e'.core = e.core) (.inr rfl) hitems
      (fun indent pss hpss => ?_) rfl
    fun G ks after hbraced => ?_⟩
  · rw [printType, InterfaceElem.printElems_eq_mapM, hpss]
    rfl
  · refine takes_peek (takes_advance (hbraced.bind fun gs hgs => .pure ?_))
    rw [TypeExpr.core, TypeExpr.core, InterfaceElem.cores_eq_map, InterfaceElem.cores_eq_map,
      map_eq_of_forall₂ hgs, List.map_map]
    rfl

end ServiceSplit
