import ServiceSplit.Proofs.Except
import ServiceSplit.Proofs.RoundTrip.Types

/-!
# Parameter lists that are read back

A parameter list names all its parameters or none, and what stands between two commas of it is an
entry: a name, a type, or a name and a type. The names in front of a type are entries of their own,
and the entries are grouped again when the list has been read.

This file proves that parameter lists, signatures, function types and types in parentheses are read
back if the types in them are. A single result without a name is written without parentheses; a
result that is in parentheses itself is then read as a list of results.
-/

namespace ServiceSplit

open ServiceSplit.Parser

/-! ### Items of items -/

namespace TokenKind

variable (sep : TokenKind) {kss lss : List (List TokenKind)}

theorem join_append (h : kss ≠ []) (h' : lss ≠ []) :
    sep.join (kss ++ lss) = sep.join kss ++ sep :: sep.join lss := by
  cases kss with
  | nil => exact absurd rfl h
  | cons ks kss =>
    cases lss with
    | nil => exact absurd rfl h'
    | cons ls lss => simp [join]

theorem join_flatMap {ι : Type} {kinds : ι → List (List TokenKind)} {items : List ι}
    (h : ∀ i ∈ items, kinds i ≠ []) :
    sep.join (items.flatMap kinds) = sep.join (items.map fun i => sep.join (kinds i)) := by
  induction items with
  | nil => rfl
  | cons i items ih =>
    obtain ⟨hi, hitems⟩ := List.forall_mem_cons.mp h
    rw [List.flatMap_cons, List.map_cons]
    cases items with
    | nil => simp [join]
    | cons j items =>
      have hne : (j :: items).flatMap kinds ≠ [] := by
        rw [List.flatMap_cons]
        exact List.append_ne_nil_of_left_ne_nil (hitems j List.mem_cons_self) _
      rw [join_append sep hi hne, ih hitems]
      simp [join]

end TokenKind

/-! ### Pieces of fields -/

namespace Field

/-- The kinds of names with commas between them. -/
def nameKinds (ids : List Ident) : List TokenKind :=
  TokenKind.join (.punct .comma) (ids.map fun id => [.ident id.name])

/-- The kinds of a tag, or of none. -/
def tagKinds : Option String → List TokenKind
  | some raw => [.literal .string raw]
  | none => []

/-- The kinds of the tokens of a field, with those of its type. -/
def kinds (f : Field) (ks : List TokenKind) : List TokenKind :=
  nameKinds f.names ++ (ks ++ tagKinds f.tag)

variable {f : Field} {ids : List Ident} {ks : List TokenKind}

private theorem exists_printAll (h : ∀ id ∈ ids, (TokenKind.ident id.name).isPlain = true)
    (hne : ids ≠ []) :
    ∃ ps, Ident.printAll ids = .ok ps ∧ Piece.Spells ps (nameKinds ids) := by
  obtain ⟨pss, hprint, hspells⟩ : ∃ pss, ids.mapM Ident.print = .ok pss ∧
      List.Forall₂ Piece.Spells pss (ids.map fun id => [.ident id.name]) := by
    refine exists_mapM_spells fun id hid => ⟨_, ?_, .ident (h id hid)⟩
    rw [Ident.print, show id.name.isEmpty = false from TokenKind.isEmpty_text_of_isPlain (h id hid)]
    rfl
  refine ⟨Piece.commas pss, ?_, .commas ?_ hspells⟩
  · rw [Ident.printAll, hprint]
    rfl
  · rintro rfl
    cases ids with
    | nil => exact hne rfl
    | cons id ids => cases hspells

/-- The pieces of a field are read as its tokens. -/
theorem exists_printField (hnames : ∀ id ∈ f.names, (TokenKind.ident id.name).isPlain = true)
    (htag : ∀ raw ∈ f.tag, (TokenKind.literal .string raw).isPlain = true) (h : f.ty.ReadsAs ks)
    (indent : Nat) : ∃ ps, printField indent f = .ok ps ∧ Piece.Spells ps (f.kinds ks) := by
  obtain ⟨names, ty, tag, span⟩ := f
  obtain ⟨ps, hprint, hspells⟩ := h.spells indent
  dsimp only at hnames htag hprint
  have hback : ∃ back, (∀ front : List Piece, layOutField front ps tag =
      (if front.isEmpty then [] else front ++ [.blank]) ++ back) ∧
        Piece.Spells back (ks ++ tagKinds tag) := by
    cases tag with
    | none => exact ⟨ps, fun front => by simp [layOutField], by simpa [tagKinds] using hspells⟩
    | some raw =>
      have hraw := htag raw rfl
      refine ⟨ps ++ .blank :: [.token (.literal .string raw)], fun front => by simp [layOutField],
        ?_⟩
      exact hspells.append_blank (.token (Piece.final_literal hraw) (Piece.head?_ne hraw (by simp)))
  obtain ⟨back, hlayout, hback⟩ := hback
  by_cases hne : names = []
  · subst hne
    refine ⟨back, ?_, hback⟩
    rw [printField, hprint]
    exact congrArg Except.ok (hlayout [])
  · obtain ⟨qs, hnames, hqs⟩ := exists_printAll hnames hne
    refine ⟨qs ++ .blank :: back, ?_, hqs.append_blank hback⟩
    have hfront : qs.isEmpty = false := by
      obtain ⟨c, hc, -⟩ := hqs.first
      cases qs with
      | nil => cases hc
      | cons q qs => rfl
    rw [printField, hnames, hprint]
    refine congrArg Except.ok ((hlayout qs).trans ?_)
    rw [hfront]
    simp

theorem printFields_eq_mapM (indent : Nat) (fs : List Field) :
    printFields indent fs = fs.mapM (printField indent) := by
  induction fs with
  | nil => rfl
  | cons f fs ih => rw [printFields, List.mapM_cons, ih]

/-- Results in parentheses are printed as parameters are. -/
theorem printResults_eq_mapM (indent : Nat) (fs : List Field) :
    printResults indent false fs = fs.mapM (printField indent) := by
  induction fs with
  | nil => rfl
  | cons f fs ih =>
    obtain ⟨names, ty, tag, span⟩ := f
    rw [printResults, List.mapM_cons, ih, printField]
    simp

/-! ### Entries -/

/-- The field is written in a parameter list: its names are plain, and it has no tag. -/
structure IsParam (f : Field) : Prop where
  plain : ∀ id ∈ f.names, (TokenKind.ident id.name).isPlain = true
  tag : f.tag = none

/-- The fields are those of a parameter list: all have names or none. -/
structure AreParams (fs : List Field) : Prop where
  each : ∀ f ∈ fs, f.IsParam
  uniform : (∀ f ∈ fs, f.names ≠ []) ∨ ∀ f ∈ fs, f.names = []

end Field

namespace ParamEntry

/-- An entry without places and parentheses. -/
def core : ParamEntry → ParamEntry
  | bare id => bare (.made id.name)
  | named id ty => named (.made id.name) ty.core
  | typed ty _ => typed ty.core .synthetic

/-- The entries of a field with names, and the kinds of their tokens. -/
def ofNames (ty : TypeExpr) (ks : List TokenKind) : List Ident → List (ParamEntry × List TokenKind)
  | [] => []
  | [id] => [(named id ty, .ident id.name :: ks)]
  | id :: next :: ids => (bare id, [.ident id.name]) :: ofNames ty ks (next :: ids)

variable {t : TypeExpr} {ks : List TokenKind} {n : Nat}

theorem ofNames_ne_nil {ids : List Ident} (h : ids ≠ []) : ofNames t ks ids ≠ [] := by
  cases ids with
  | nil => exact absurd rfl h
  | cons id ids => cases ids <;> exact List.cons_ne_nil _ _

theorem join_ofNames {ids : List Ident} (h : ids ≠ []) :
    TokenKind.join (.punct .comma) ((ofNames t ks ids).map Prod.snd) = Field.nameKinds ids ++
    ks := by
  fun_induction ofNames t ks ids with
  | case1 => exact absurd rfl h
  | case2 id => simp [TokenKind.join, Field.nameKinds]
  | case3 id next ids ih =>
    have hne : (ofNames t ks (next :: ids)).map Prod.snd ≠ [] := by
      simpa using ofNames_ne_nil (List.cons_ne_nil next ids)
    rw [List.map_cons, ← List.singleton_append,
      TokenKind.join_append _ (List.cons_ne_nil _ _) hne, ih (List.cons_ne_nil _ _)]
    simp [TokenKind.join, Field.nameKinds]

/-- An entry that starts with a name is read by its shape. -/
private theorem takes_of_shape {G : Grammar} {name : String} {after : List TokenKind}
    {Q : ParamEntry → Prop}
    (h : ∀ start, Takes (match shapeOn ks with
      | .bare => do return .bare (← expectIdent .expectedName)
      | .typed => G.typedEntry start
      | .named => do
        let id ← expectIdent .expectedName
        return .named id (← G.type)) (.ident name :: ks) after Q) :
    Takes G.paramEntry (.ident name :: ks) after Q := by
  refine takes_position fun start => takes_get fun c hc => ?_
  have hshape : shape (c.rest.drop 1) = shapeOn ks := by
    rw [shape_eq, List.map_drop, show c.rest.map Token.kind = _ from hc]
    rfl
  rw [Cursor.kind_of_kinds hc, hshape]
  exact h start

/-- The entry ends here. -/
private def ends (k : TokenKind) : Prop :=
  k = .punct .comma ∨ k = .punct .rparen

private theorem endsType_of_ends {k : TokenKind} (h : ends k) : k.endsType = true := by
  rcases h with rfl | rfl <;> rfl

private theorem takes_bare (G : Grammar) (id : Ident) :
    TakesItem G.paramEntry ends [.ident id.name] fun e => e.core = (bare id).core := by
  intro k rest hk
  rw [List.singleton_append]
  refine takes_of_shape fun start => ?_
  rw [show shapeOn (k :: rest) = .bare by rcases hk with rfl | rfl <;> rfl]
  refine (takes_expectIdent .expectedName).bind fun id' hid => .pure ?_
  rw [core, core, hid]

private theorem takes_named (h : t.ReadsAs ks) (hn : ks.length < n) (id : Ident) :
    TakesItem (Grammar.ofBound n).paramEntry ends (.ident id.name :: ks)
      fun e => e.core = (named id t).core := by
  intro k rest hk
  rw [List.cons_append]
  refine takes_of_shape fun start => ?_
  rw [h.named]
  refine (takes_expectIdent .expectedName).bind fun id' hid => ?_
  refine (h.takes n hn k rest (endsType_of_ends hk)).bind fun u hu => .pure ?_
  rw [core, core, hid, hu]

/-- What an entry without a name stands for. -/
private def StandsFor (t : TypeExpr) (e : ParamEntry) : Prop :=
  e.isNamed = false ∧ e.field.core = ⟨[], t.core, none, .synthetic⟩

private theorem takes_unnamed (h : t.ReadsAs ks) (hn : ks.length < n) :
    TakesItem (Grammar.ofBound n).paramEntry ends ks (StandsFor t) := by
  intro k rest hk
  have htyped : ∀ start, Takes ((Grammar.ofBound n).typedEntry start) (ks ++ k :: rest) (k :: rest)
      (StandsFor t) := by
    intro start
    refine (h.takes n hn k rest (endsType_of_ends hk)).bind fun u hu => ?_
    refine takes_spanFrom fun span => .pure ⟨rfl, ?_⟩
    rw [field, Field.core, hu]
    rfl
  rcases h.entry with ⟨name, rfl, hcore⟩ | hentry
  · refine (takes_bare _ (.made name) k rest hk).mono fun e he => ?_
    cases e with
    | bare id =>
      obtain ⟨id, span⟩ := id
      cases he
      exact ⟨rfl, by rw [hcore]; rfl⟩
    | _ => cases he
  · obtain ⟨first, more, rfl, -⟩ := h.starts
    rw [List.cons_append] at htyped ⊢
    cases first with
    | ident name =>
      refine takes_of_shape fun start => ?_
      rw [hentry name more rfl k rest hk]
      exact htyped start
    | _ =>
      refine takes_position fun start => takes_get fun c hc => ?_
      rw [Cursor.kind_of_kinds hc]
      exact htyped start

/-! ### Groups of entries -/

/-- The entries were read for those in the list. -/
private def ReadFor (items : List (ParamEntry × List TokenKind)) (es : List ParamEntry) : Prop :=
  List.Forall₂ (fun i e => e.core = i.1.core) items es

theorem mem_ofNames {ids : List Ident} {i : ParamEntry × List TokenKind}
    (h : i ∈ ofNames t ks ids) :
    (∃ id, i = (bare id, [.ident id.name])) ∨ ∃ id, i = (named id t, .ident id.name :: ks) := by
  fun_induction ofNames t ks ids with
  | case1 => cases h
  | case2 id => exact .inr ⟨id, List.mem_singleton.mp h⟩
  | case3 id next ids ih =>
    rcases List.mem_cons.mp h with rfl | h
    · exact .inl ⟨id, rfl⟩
    · exact ih h

/-- The names in front of a type are grouped with it. -/
private theorem exists_groupNamed_names {ids : List Ident} (hne : ids ≠ [])
    {items : List (ParamEntry × List TokenKind)} {es : List ParamEntry}
    (h : ReadFor (ofNames t ks ids ++ items) es) (pending : List Ident) :
    ∃ f es', ReadFor items es' ∧
      groupNamed pending es = (do return f :: (← groupNamed [] es')) ∧
      f.core = ⟨(pending ++ ids).map fun id => .made id.name, t.core, none, .synthetic⟩ := by
  fun_induction ofNames t ks ids generalizing es pending with
  | case1 => exact absurd rfl hne
  | case2 id =>
    cases h with
    | @cons _ e _ es he hes =>
      cases e with
      | named id' ty =>
        injection he with hid hty
        refine ⟨_, es, hes, rfl, ?_⟩
        rw [Field.core, hty, List.map_append, List.map_append, List.map_singleton, hid]
        rfl
      | _ => cases he
  | case3 id next ids ih =>
    cases h with
    | @cons _ e _ es he hes =>
      cases e with
      | bare id' =>
        obtain ⟨f, es', hes', hgroup, hf⟩ := ih (List.cons_ne_nil _ _) hes (pending ++ [id'])
        refine ⟨f, es', hes', hgroup, ?_⟩
        injection he with hid
        rw [hf, List.append_assoc, List.singleton_append, List.map_append, List.map_append,
          List.map_cons, hid]
        rfl
      | _ => cases he

private theorem exists_groupNamed {fs : List (Field × List TokenKind)}
    (hnames : ∀ f ∈ fs, f.1.names ≠ []) (htag : ∀ f ∈ fs, f.1.tag = none) {es : List ParamEntry}
    (h : ReadFor (fs.flatMap fun f => ofNames f.1.ty f.2 f.1.names) es) :
    ∃ gs, groupNamed [] es = .ok gs ∧ gs.map Field.core = fs.map fun f => f.1.core := by
  induction fs generalizing es with
  | nil =>
    cases h
    exact ⟨[], rfl, rfl⟩
  | cons f fs ih =>
    obtain ⟨hf, hnames⟩ := List.forall_mem_cons.mp hnames
    obtain ⟨hf', htag⟩ := List.forall_mem_cons.mp htag
    obtain ⟨g, es', hes', hgroup, hg⟩ := exists_groupNamed_names hf h []
    obtain ⟨gs, hgs, hcores⟩ := ih hnames htag hes'
    refine ⟨g :: gs, ?_, ?_⟩
    · rw [hgroup, hgs]
      rfl
    · rw [List.map_cons, List.map_cons, hcores, hg, Field.core, hf']
      rfl

private theorem any_isNamed_ofNames {ids : List Ident} (hne : ids ≠ []) :
    (ofNames t ks ids).any (·.1.isNamed) = true := by
  fun_induction ofNames t ks ids with
  | case1 => exact absurd rfl hne
  | case2 id => rfl
  | case3 id next ids ih => exact ih (List.cons_ne_nil _ _)

private theorem any_isNamed_of_readFor {items : List (ParamEntry × List TokenKind)}
    {es : List ParamEntry} (h : ReadFor items es) : es.any isNamed = items.any (·.1.isNamed) := by
  have hcore : ∀ e : ParamEntry, e.core.isNamed = e.isNamed := by
    intro e
    cases e <;> rfl
  induction h with
  | nil => rfl
  | @cons i e items es he _ ih => rw [List.any_cons, List.any_cons, ih, ← hcore, he, hcore]

/-- A list of parameters with names is read back from its entries. -/
private theorem exists_group_of_names {fs : List (Field × List TokenKind)}
    (hnames : ∀ f ∈ fs, f.1.names ≠ []) (htag : ∀ f ∈ fs, f.1.tag = none) {es : List ParamEntry}
    (h : ReadFor (fs.flatMap fun f => ofNames f.1.ty f.2 f.1.names) es) :
    ∃ gs, group es = .ok gs ∧ gs.map Field.core = fs.map fun f => f.1.core := by
  cases fs with
  | nil =>
    cases h
    exact ⟨[], rfl, rfl⟩
  | cons f fs =>
    have hany : es.any isNamed = true := by
      rw [any_isNamed_of_readFor h, List.flatMap_cons, List.any_append,
        any_isNamed_ofNames (hnames f List.mem_cons_self), Bool.true_or]
    rw [group, if_pos hany]
    exact exists_groupNamed hnames htag h

/-- So is one without names. -/
private theorem exists_group_of_types {fs : List (Field × List TokenKind)}
    (hnames : ∀ f ∈ fs, f.1.names = []) (htag : ∀ f ∈ fs, f.1.tag = none) {es : List ParamEntry}
    (h : List.Forall₂ (fun f e => StandsFor f.1.ty e) fs es) :
    ∃ gs, group es = .ok gs ∧ gs.map Field.core = fs.map fun f => f.1.core := by
  have hboth : es.any isNamed = false ∧ (es.map field).map Field.core = fs.map fun f =>
    f.1.core := by
    induction h with
    | nil => exact ⟨rfl, rfl⟩
    | @cons f e fs es he _ ih =>
      obtain ⟨hf, hnames⟩ := List.forall_mem_cons.mp hnames
      obtain ⟨hf', htag⟩ := List.forall_mem_cons.mp htag
      obtain ⟨hany, hcores⟩ := ih hnames htag
      refine ⟨by rw [List.any_cons, he.1, hany]; rfl, ?_⟩
      rw [List.map_cons, List.map_cons, List.map_cons, hcores, he.2, Field.core, hf, hf']
      rfl
  refine ⟨es.map field, ?_, hboth.2⟩
  rw [group, hboth.1, if_neg Bool.false_ne_true]

end ParamEntry

/-! ### Parameter lists -/

namespace Field

/-- The kinds of the tokens of a parameter list, without its parentheses. -/
def paramKinds (fs : List (Field × List TokenKind)) : List TokenKind :=
  TokenKind.join (.punct .comma) (fs.map fun f => f.1.kinds f.2)

variable {fs : List (Field × List TokenKind)} {n : Nat}

private theorem takes_entries (hfs : AreParams (fs.map Prod.fst)) (h : ∀ f ∈ fs, f.1.ty.ReadsAs f.2)
    (hn : (paramKinds fs).length < n) (rest : List TokenKind) :
    Takes (commaList (.punct .rparen) (Grammar.ofBound n).paramEntry (Grammar.ofBound n).bound)
      (paramKinds fs ++ .punct .rparen :: rest) (.punct .rparen :: rest)
      fun es => ∃ gs, ParamEntry.group es = .ok gs ∧ gs.map core = fs.map fun f => f.1.core := by
  rw [Grammar.bound_ofBound]
  have hkinds : ∀ f ∈ fs, f.1.kinds f.2 = nameKinds f.1.names ++ f.2 := by
    intro f hf
    rw [kinds, (hfs.each f.1 (List.mem_map_of_mem hf)).tag, tagKinds, List.append_nil]
  have htag : ∀ f ∈ fs, f.1.tag = none := fun f hf => (hfs.each f.1 (List.mem_map_of_mem hf)).tag
  have hlen : ∀ f ∈ fs, f.2.length < n := by
    intro f hf
    have hle := TokenKind.length_le_join (.punct .comma)
      (List.mem_map_of_mem (f := fun f => f.1.kinds f.2) hf)
    rw [hkinds f hf, List.length_append] at hle
    rw [paramKinds] at hn
    omega
  rcases hfs.uniform with hnames | hnames
  · have hne : ∀ f ∈ fs, f.1.names ≠ [] := fun f hf => hnames f.1 (List.mem_map_of_mem hf)
    have hjoin : paramKinds fs = TokenKind.join (.punct .comma)
        ((fs.flatMap fun f => ParamEntry.ofNames f.1.ty f.2 f.1.names).map Prod.snd) := by
      rw [List.map_flatMap, TokenKind.join_flatMap]
      · refine congrArg _ (List.map_congr_left fun f hf => ?_)
        rw [hkinds f hf, ParamEntry.join_ofNames (hne f hf)]
      · intro f hf
        simpa using ParamEntry.ofNames_ne_nil (hne f hf)
    have hitem : ∀ i ∈ fs.flatMap fun f => ParamEntry.ofNames f.1.ty f.2 f.1.names,
        TakesItem (Grammar.ofBound n).paramEntry (fun k => k = .punct .comma ∨
          k = .punct .rparen) i.2
            (fun e => e.core = i.1.core) ∧
          ∃ k ks, i.2 = k :: ks ∧ Continues (.punct .rparen) k := by
      intro i hi
      obtain ⟨f, hf, hi⟩ := List.mem_flatMap.mp hi
      rcases ParamEntry.mem_ofNames hi with ⟨id, rfl⟩ | ⟨id, rfl⟩
      · exact ⟨ParamEntry.takes_bare _ id, _, _, rfl, nofun, nofun⟩
      · exact ⟨ParamEntry.takes_named (h f hf) (hlen f hf) id, _, _, rfl, nofun, nofun⟩
    have hcount := TokenKind.length_le_length_join (.punct .comma)
      (List.forall_mem_map.mpr fun i hi => by
        obtain ⟨-, k, ks, hks, -⟩ := hitem i hi
        exact hks ▸ List.cons_ne_nil k ks)
    rw [← hjoin, List.length_map] at hcount
    rw [hjoin]
    exact (takes_commaList (by decide) hitem (by omega) (by omega)).mono fun es hes =>
      ParamEntry.exists_group_of_names hne htag hes
  · have hnil : ∀ f ∈ fs, f.1.names = [] := fun f hf => hnames f.1 (List.mem_map_of_mem hf)
    have hitem : ∀ f ∈ fs, TakesItem (Grammar.ofBound n).paramEntry
        (fun k => k = .punct .comma ∨ k = .punct .rparen) (f.1.kinds f.2)
          (ParamEntry.StandsFor f.1.ty) ∧
        ∃ k ks, f.1.kinds f.2 = k :: ks ∧ Continues (.punct .rparen) k := by
      intro f hf
      rw [hkinds f hf, hnil f hf]
      obtain ⟨k, ks, hks, hk⟩ := (h f hf).starts
      exact ⟨ParamEntry.takes_unnamed (h f hf) (hlen f hf), k, ks, hks,
        TypeExpr.continues_of_startsType hk rfl⟩
    have hcount := TokenKind.length_le_length_join (.punct .comma)
      (List.forall_mem_map.mpr fun f hf => by
        obtain ⟨-, k, ks, hks, -⟩ := hitem f hf
        exact hks ▸ List.cons_ne_nil k ks)
    rw [List.length_map, ← paramKinds] at hcount
    exact (takes_commaList (by decide) hitem (by omega) (by omega)).mono fun es hes =>
      ParamEntry.exists_group_of_types hnil htag hes

/-- A parameter list is read back. -/
theorem takes_parameters (hfs : AreParams (fs.map Prod.fst)) (h : ∀ f ∈ fs, f.1.ty.ReadsAs f.2)
    (hn : (paramKinds fs).length < n) (rest : List TokenKind) :
    Takes (Grammar.ofBound n).parameters
      (.punct .lparen :: (paramKinds fs ++ .punct .rparen :: rest)) rest
      fun gs => gs.map core = fs.map fun f => f.1.core := by
  refine takes_expect ((takes_entries hfs h hn rest).bind ?_)
  rintro es ⟨gs, hgroup, hgs⟩
  refine takes_expect ?_
  rw [hgroup]
  exact .pure hgs

theorem exists_printParams (hfs : AreParams (fs.map Prod.fst)) (h : ∀ f ∈ fs, f.1.ty.ReadsAs f.2)
    (indent : Nat) : ∃ pss, (fs.map Prod.fst).mapM (printField indent) = .ok pss ∧
      Piece.Spells (Piece.parens (Piece.commas pss))
        (.punct .lparen :: (paramKinds fs ++ [.punct .rparen])) := by
  obtain ⟨pss, hprint, hspells⟩ := exists_mapM_spells fun f (hf : f ∈ fs) => by
    have hparam := hfs.each f.1 (List.mem_map_of_mem hf)
    exact exists_printField hparam.plain (fun raw hraw => by rw [hparam.tag] at hraw; cases hraw)
      (h f hf) indent
  refine ⟨pss, by rw [List.mapM_map]; exact hprint, ?_⟩
  cases fs with
  | nil =>
    cases hspells
    exact .cons (Piece.initial_punct (by decide) (by decide) (by decide)) (by decide)
      (.token (Piece.final_punct (by decide)) (by decide))
  | cons f fs =>
    refine (Piece.Spells.commas ?_ hspells).parens
    rintro rfl
    cases hspells

theorem balanced_kinds {f : Field} {ks : List TokenKind} (h : ParamEntry.Balanced ks) :
    ParamEntry.Balanced (f.kinds ks) := by
  refine .append (.join (List.forall_mem_map.mpr fun id _ => .single rfl) rfl) (h.append ?_)
  cases f.tag with
  | none => exact .nil
  | some raw => exact .single rfl

theorem balanced_paramKinds (h : ∀ f ∈ fs, f.1.ty.ReadsAs f.2) :
    ParamEntry.Balanced (paramKinds fs) :=
  .join (List.forall_mem_map.mpr fun f hf => balanced_kinds (h f hf).balanced) rfl

end Field

/-! ### Types in parentheses -/

namespace TypeExpr

variable {t : TypeExpr} {ks : List TokenKind}

/-- The only parameter of a list, without a name. -/
private def alone (t : TypeExpr) (ks : List TokenKind) : List (Field × List TokenKind) :=
  [(.unnamed t, ks)]

theorem ReadsAs.paren (h : t.ReadsAs ks) :
    (TypeExpr.paren t).ReadsAs (.punct .lparen :: (ks ++ [.punct .rparen])) where
  spells indent := by
    obtain ⟨ps, hprint, hspells⟩ := h.spells indent
    exact ⟨_, by rw [printType, hprint]; rfl, hspells.parens⟩
  starts := ⟨_, _, rfl, rfl⟩
  balanced := (h.balanced.append (.single rfl)).cons rfl
  named rest := rfl
  entry := .inr (by simp)
  arrow := by simp
  embeds := by rintro ⟨⟩
  result := by
    intro more _ n hn k rest _
    have hkinds : Field.paramKinds (alone t ks) = ks := by
      simp [Field.paramKinds, alone, TokenKind.join, Field.kinds, Field.nameKinds, Field.tagKinds,
        Field.unnamed]
    have hparams : Field.AreParams ((alone t ks).map Prod.fst) :=
      ⟨List.forall_mem_singleton.mpr ⟨by simp [Field.unnamed], rfl⟩,
        .inr (List.forall_mem_singleton.mpr rfl)⟩
    simp only [List.length_cons, List.length_append] at hn
    have htakes := Field.takes_parameters hparams (List.forall_mem_singleton.mpr h) (n := n)
      (by rw [hkinds]; omega) (k :: rest)
    rw [hkinds] at htakes
    rw [List.cons_append, List.append_assoc]
    exact htakes
  takes n hn k rest _ := by
    simp only [List.length_cons, List.length_append, List.length_nil] at hn
    rw [List.cons_append, List.append_assoc]
    exact h.takes_paren (by omega) (k :: rest)

end TypeExpr

/-! ### Signatures -/

namespace Signature

variable {params results : List Field} {n : Nat}

/-- The signature is read back from tokens of the kinds `ks`, but for places and parentheses. -/
structure ReadsAs (s : Signature) (ks : List TokenKind) : Prop where
  spells : ∀ indent, ∃ ps, printSignature indent s = .ok (.mark .lparen :: ps) ∧
    Piece.Spells (.mark .lparen :: ps) ks
  starts : ∃ more, ks = .punct .lparen :: more
  balanced : ParamEntry.Balanced ks
  takes : ∀ n, ks.length < n →
    TakesItem (Grammar.ofBound n).signature (·.endsType = true) ks fun s' => s'.core = s.core

/-- Results behind parameters that have been read. -/
private def readResults (G : Grammar) (params : List Field) : Parser Signature := do
  let next ← peek
  if next == .punct .lparen then
    return ⟨params, ← G.parameters⟩
  else if next.startsType then
    return ⟨params, [.unnamed (← G.type)]⟩
  else
    return ⟨params, []⟩

/-- The results are read back from tokens of the kinds `ks` behind the parameters. -/
private structure ResultsReadAs (results : List Field) (ks : List TokenKind) : Prop where
  spells : ∀ indent, ∃ rs, printResults indent (bareResult results) results = .ok rs ∧
    ∀ ps ls, Piece.Spells ps ls → Piece.Spells (ps ++ layOutResults (bareResult results) rs)
      (ls ++ ks)
  balanced : ParamEntry.Balanced ks
  takes : ∀ n params, ks.length < n →
    TakesItem (readResults (Grammar.ofBound n) params) (·.endsType = true) ks fun s =>
      s.params = params ∧ s.results.map Field.core = results.map Field.core

private theorem resultsReadAs_nil : ResultsReadAs [] [] where
  spells indent := ⟨[], rfl, fun ps ls h => by simpa [layOutResults] using h⟩
  balanced := .nil
  takes n params _ k rest hk := by
    refine takes_peek ?_
    have hstarts := TypeExpr.startsType_of_endsType hk
    have hne : k ≠ .punct .lparen := by
      rintro rfl
      cases hk
    rw [beq_eq_false_iff_ne.mpr hne, hstarts]
    exact .pure ⟨rfl, rfl⟩

private theorem resultsReadAs_bare {t : TypeExpr} {ks : List TokenKind} {span : Span}
    (h : t.ReadsAs ks) (hbare : bareResult [⟨[], t, none, span⟩] = true) :
    ResultsReadAs [⟨[], t, none, span⟩] ks where
  spells indent := by
    obtain ⟨ps, hprint, hspells⟩ := h.spells indent
    refine ⟨[ps], ?_, fun qs ls hqs => ?_⟩
    · rw [hbare, printResults, hprint, Ident.printAll]
      simp [layOutField, printResults, Piece.commas]
    · rw [hbare]
      simpa [layOutResults, Piece.commas, Piece.parensIf] using hqs.append_blank hspells
  balanced := h.balanced
  takes n params hn k rest hk := by
    obtain ⟨first, more, rfl, hstarts⟩ := h.starts
    refine takes_peek ?_
    by_cases hparen : first = .punct .lparen
    · subst hparen
      rw [beq_self_eq_true, if_pos rfl]
      refine (h.result more rfl n hn k rest hk).bind fun gs hgs => .pure ⟨rfl, ?_⟩
      exact hgs
    · rw [beq_eq_false_iff_ne.mpr hparen, if_neg Bool.false_ne_true, if_pos hstarts]
      refine (h.takes n hn k rest hk).bind fun u hu => .pure ⟨rfl, ?_⟩
      rw [List.map_singleton, Field.core, Field.unnamed, hu]
      rfl

private theorem resultsReadAs_parens {fs : List (Field × List TokenKind)}
    (hfs : Field.AreParams (fs.map Prod.fst)) (h : ∀ f ∈ fs, f.1.ty.ReadsAs f.2)
    (hbare : bareResult (fs.map Prod.fst) = false) (hne : fs ≠ []) :
    ResultsReadAs (fs.map Prod.fst)
      (.punct .lparen :: (Field.paramKinds fs ++ [.punct .rparen])) where
  spells indent := by
    obtain ⟨pss, hprint, hspells⟩ := Field.exists_printParams hfs h indent
    refine ⟨pss, ?_, fun qs ls hqs => ?_⟩
    · rw [hbare, Field.printResults_eq_mapM, hprint]
    · have hsome : pss.isEmpty = false := by
        cases fs with
        | nil => exact absurd rfl hne
        | cons f fs =>
          cases forall₂_of_mapM_eq_ok hprint
          rfl
      rw [hbare, layOutResults, hsome]
      exact hqs.append_blank hspells
  balanced := ((Field.balanced_paramKinds h).append (.single rfl)).cons rfl
  takes n params hn k rest hk := by
    simp only [List.length_cons, List.length_append] at hn
    rw [List.cons_append, List.append_assoc]
    refine takes_peek ?_
    rw [beq_self_eq_true, if_pos rfl]
    refine (Field.takes_parameters hfs h (by omega) (k :: rest)).bind fun gs hgs => .pure ⟨rfl, ?_⟩
    rw [hgs, List.map_map]
    rfl

/-- A signature is read back if its parameters and results are. -/
private theorem readsAs_of_results {fs : List (Field × List TokenKind)}
    (hfs : Field.AreParams (fs.map Prod.fst)) (h : ∀ f ∈ fs, f.1.ty.ReadsAs f.2)
    {ks : List TokenKind} (hresults : ResultsReadAs results ks) :
    (Signature.mk (fs.map Prod.fst) results).ReadsAs
      (.punct .lparen :: (Field.paramKinds fs ++ .punct .rparen :: ks)) where
  spells indent := by
    obtain ⟨pss, hprint, hspells⟩ := Field.exists_printParams hfs h indent
    obtain ⟨rs, hprint', hspells'⟩ := hresults.spells indent
    have hboth := hspells' _ _ hspells
    rw [List.cons_append, List.append_assoc] at hboth
    refine ⟨_, ?_, hboth⟩
    rw [printSignature, Field.printFields_eq_mapM, hprint, hprint']
    rfl
  starts := ⟨_, rfl⟩
  balanced := ((Field.balanced_paramKinds h).append (hresults.balanced.cons rfl)).cons rfl
  takes n hn k rest hk := by
    simp only [List.length_cons, List.length_append] at hn
    rw [List.cons_append, List.append_assoc, List.cons_append]
    refine (Field.takes_parameters hfs h (by omega) _).bind fun gs hgs => ?_
    refine (hresults.takes n gs (by omega) k rest hk).mono ?_
    rintro ⟨params', results'⟩ ⟨rfl, hcores⟩
    rw [Signature.core, Signature.core, Field.cores_eq_map, Field.cores_eq_map, Field.cores_eq_map,
      Field.cores_eq_map, hgs, hcores, List.map_map]
    rfl

private theorem exists_of_bareResult {gs : List (Field × List TokenKind)}
    (h : bareResult (gs.map Prod.fst) = true) :
    ∃ t tag span ks, gs = [(⟨[], t, tag, span⟩, ks)] := by
  unfold bareResult at h
  split at h
  · cases h
  · next t tag span _ heq =>
    obtain ⟨⟨f, ks⟩, rfl, rfl⟩ := List.map_eq_singleton_iff.mp heq
    exact ⟨t, tag, span, ks, rfl⟩
  · cases h

theorem readsBack (hparams : Field.AreParams params) (hresults : Field.AreParams results)
    (hp : ∀ f ∈ params, f.ty.ReadsBack) (hr : ∀ f ∈ results, f.ty.ReadsBack) :
    ∃ ks, (Signature.mk params results).ReadsAs ks := by
  obtain ⟨fs, rfl, hfs⟩ := exists_zip hp
  obtain ⟨gs, rfl, hgs⟩ := exists_zip hr
  have hread : ∃ ks, ResultsReadAs (gs.map Prod.fst) ks := by
    cases hbare : bareResult (gs.map Prod.fst) with
    | true =>
      obtain ⟨t, tag, span, ks, rfl⟩ := exists_of_bareResult hbare
      obtain rfl : tag = none := (hresults.each _ List.mem_cons_self).tag
      exact ⟨ks, resultsReadAs_bare (hgs _ List.mem_cons_self) hbare⟩
    | false =>
      by_cases hne : gs = []
      · subst hne
        exact ⟨_, resultsReadAs_nil⟩
      · exact ⟨_, resultsReadAs_parens hresults hgs hbare hne⟩
  obtain ⟨ks, hks⟩ := hread
  exact ⟨_, readsAs_of_results hparams hfs hks⟩

end Signature

theorem TypeExpr.ReadsAs.func {s : Signature} {ks : List TokenKind} (h : s.ReadsAs ks) :
    (TypeExpr.func s).ReadsAs (.keyword .kwFunc :: ks) where
  spells indent := by
    obtain ⟨ps, hprint, hspells⟩ := h.spells indent
    refine ⟨_, by rw [printType, hprint]; rfl, ?_⟩
    exact .cons_word (TokenKind.isPlain_keyword _) (fun _ => rfl) (by decide) (.inl rfl) hspells
  starts := ⟨_, _, rfl, rfl⟩
  balanced := h.balanced.cons rfl
  named rest := rfl
  entry := .inr nofun
  arrow := nofun
  embeds := nofun
  result := nofun
  takes n hn k rest hk := by
    cases n with
    | zero => cases hn
    | succ n =>
      refine takes_peek (takes_advance ?_)
      refine (h.takes n (Nat.lt_of_succ_lt_succ hn) k rest hk).bind fun s' hs => .pure ?_
      rw [TypeExpr.core, TypeExpr.core, hs]

end ServiceSplit
