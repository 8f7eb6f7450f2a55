import Mathlib.Data.List.Forall2
import ServiceSplit.Parser.Sequence

/-!
# Parsers on known tokens

The value of a parser depends on the kinds of the tokens in front of it, but for the places in it.
This file has rules for what a parser makes of tokens of given kinds and where it stops, one for
each way in which parsers are put together.

The rule for a list is about items with given kinds each: if the item parser takes the kinds of each
item, whatever is allowed behind it, the list parser takes the kinds of all of them, with the marks
between them.
-/

namespace ServiceSplit

/-- The kinds of the tokens to come. -/
def Cursor.kinds (c : Cursor) : List TokenKind :=
  c.rest.map Token.kind

/-- The kinds of items with a mark between them. -/
def TokenKind.join (sep : TokenKind) : List (List TokenKind) → List TokenKind
  | [] => []
  | ks :: kss => ks ++ kss.flatMap (sep :: ·)

namespace TokenKind

variable (sep : TokenKind) {kss : List (List TokenKind)}

theorem length_le_length_flatMap {ι : Type} {kinds : ι → List TokenKind} {items : List ι}
    (h : ∀ i ∈ items, kinds i ≠ []) : items.length ≤ (items.flatMap kinds).length := by
  induction items with
  | nil => exact Nat.le_refl 0
  | cons i items ih =>
    obtain ⟨hi, hitems⟩ := List.forall_mem_cons.mp h
    have hpos := List.length_pos_iff.mpr hi
    have hle := ih hitems
    rw [List.flatMap_cons, List.length_append, List.length_cons]
    omega

theorem length_le_flatMap {ι : Type} (kinds : ι → List TokenKind) {items : List ι} {i : ι}
    (h : i ∈ items) : (kinds i).length ≤ (items.flatMap kinds).length := by
  rw [List.flatMap_def]
  exact (List.sublist_flatten_of_mem (List.mem_map_of_mem h)).length_le

theorem length_le_join {ks : List TokenKind} (h : ks ∈ kss) :
    ks.length ≤ (join sep kss).length := by
  cases kss with
  | nil => cases h
  | cons ls kss =>
    rw [join, List.length_append]
    rcases List.mem_cons.mp h with rfl | h
    · omega
    · have hle : (sep :: ks).length ≤ (kss.flatMap (sep :: ·)).length := length_le_flatMap _ h
      rw [List.length_cons] at hle
      omega

theorem length_le_length_join (h : ∀ ks ∈ kss, ks ≠ []) : kss.length ≤ (join sep kss).length := by
  cases kss with
  | nil => exact Nat.le_refl 0
  | cons ls kss =>
    have hpos := List.length_pos_iff.mpr (h ls List.mem_cons_self)
    have hle : kss.length ≤ (kss.flatMap (sep :: ·)).length :=
      length_le_length_flatMap fun _ _ => List.cons_ne_nil _ _
    rw [join, List.length_append, List.length_cons]
    omega

/-- Behind an item stands the mark in front of the next one, or what ends the list. -/
theorem exists_cons_following {ι : Type} (sep last : TokenKind) (kinds : ι → List TokenKind)
    (items : List ι) (rest : List TokenKind) : ∃ k more,
      items.flatMap (fun i => sep :: kinds i) ++ last :: rest = k :: more ∧
      (k = sep ∨ k = last) := by
  cases items with
  | nil => exact ⟨last, rest, rfl, .inr rfl⟩
  | cons i items => exact ⟨sep, _, rfl, .inl rfl⟩

end TokenKind

namespace Cursor

variable {c : Cursor} {k l : TokenKind} {ks : List TokenKind}

theorem exists_rest_of_kinds (h : c.kinds = k :: ks) :
    ∃ t ts, c.rest = t :: ts ∧ t.kind = k ∧ ts.map Token.kind = ks := by
  rw [kinds] at h
  cases hrest : c.rest with
  | nil =>
    rw [hrest] at h
    cases h
  | cons t ts =>
    rw [hrest, List.map_cons] at h
    injection h with hk hks
    exact ⟨t, ts, rfl, hk, hks⟩

theorem kind_of_kinds (h : c.kinds = k :: ks) : c.kind = k := by
  obtain ⟨t, ts, hrest, hk, -⟩ := exists_rest_of_kinds h
  rw [kind, hrest]
  exact hk

theorem kindAt_one_of_kinds (h : c.kinds = k :: l :: ks) : c.kindAt 1 = l := by
  obtain ⟨t, ts, hrest, -, hts⟩ := exists_rest_of_kinds h
  rw [kindAt, hrest]
  cases ts with
  | nil => cases hts
  | cons u us => exact (List.cons.inj hts).1

theorem kinds_advance (h : c.kinds = k :: ks) : c.advance.kinds = ks := by
  obtain ⟨t, ts, hrest, -, hts⟩ := exists_rest_of_kinds h
  rw [advance, hrest]
  exact hts

/-- The cursor `c'` stands further on in the tokens of `c`, and reads braces in the same way. -/
structure Leads (c c' : Cursor) : Prop where
  rest : c'.rest <:+ c.rest
  bodyBrace : c'.bodyBrace = c.bodyBrace

theorem Leads.refl (c : Cursor) : c.Leads c :=
  ⟨List.suffix_rfl, rfl⟩

theorem Leads.trans {c' c'' : Cursor} (h : c.Leads c') (h' : c'.Leads c'') : c.Leads c'' :=
  ⟨h'.rest.trans h.rest, h'.bodyBrace.trans h.bodyBrace⟩

theorem leads_advance (c : Cursor) : c.Leads c.advance := by
  obtain ⟨rest, prev, comments, bodyBrace⟩ := c
  cases rest with
  | nil => exact .refl _
  | cons t ts => exact ⟨List.suffix_cons t ts, rfl⟩

/-- Further on, the tokens to come are the last ones of the same kinds. -/
theorem Leads.rest_eq {c' : Cursor} (h : c.Leads c') (hc : c.kinds = ks ++ c'.kinds) :
    c'.rest = c.rest.drop ks.length := by
  obtain ⟨read, hread⟩ := h.rest
  have hlen : read.length = ks.length := by
    have heq := congrArg List.length hc
    simp only [kinds, ← hread, List.length_map, List.length_append] at heq
    omega
  rw [← hread, ← hlen, List.drop_left]

end Cursor

namespace Parser

variable {α β : Type} {p : Parser α} {f : α → Parser β} {Q : β → Prop} {R : α → Prop}
  {before between after : List TokenKind}

/-! ### Sequences -/

/-- In front of tokens of the kinds `before`, the parser reads up to those of the kinds `after`, and
`R` holds of its value. -/
def Takes (p : Parser α) (before after : List TokenKind) (R : α → Prop) : Prop :=
  ∀ c, c.kinds = before → ∃ a c', p c = .ok a c' ∧ c.Leads c' ∧ c'.kinds = after ∧ R a

theorem Takes.pure {a : α} (h : R a) : Takes (pure a : Parser α) before before R :=
  fun c hc => ⟨a, c, rfl, .refl c, hc, h⟩

theorem Takes.bind (hp : Takes p before between R) (hf : ∀ a, R a → Takes (f a) between after Q) :
    Takes (p >>= f) before after Q := by
  intro c hc
  obtain ⟨a, c', hpc, hleads, hc', ha⟩ := hp c hc
  obtain ⟨b, c'', hfc, hleads', hc'', hb⟩ := hf a ha c' hc'
  refine ⟨b, c'', ?_, hleads.trans hleads', hc'', hb⟩
  show EStateM.bind p f c = _
  rw [EStateM.bind, hpc]
  exact hfc

theorem Takes.map {g : α → β} (hp : Takes p before after R) (hg : ∀ a, R a → Q (g a)) :
    Takes (g <$> p) before after Q := by
  rw [← bind_pure_comp]
  exact hp.bind fun a ha => .pure (hg a ha)

theorem Takes.mono {R' : α → Prop} (hp : Takes p before after R) (h : ∀ a, R a → R' a) :
    Takes p before after R' := by
  intro c hc
  obtain ⟨a, c', hpc, hleads, hc', ha⟩ := hp c hc
  exact ⟨a, c', hpc, hleads, hc', h a ha⟩

/-! ### Single tokens -/

variable {k l : TokenKind} {ks : List TokenKind}

private theorem takes_of_eq {a : α} (c' : Cursor → Cursor)
    (h : ∀ c : Cursor, c.kinds = before →
      p c = .ok a (c' c) ∧ c.Leads (c' c) ∧ (c' c).kinds = between)
    (hf : Takes (f a) between after Q) : Takes (p >>= f) before after Q := by
  refine Takes.bind (R := (· = a)) (fun c hc => ?_) fun _ ha => ha ▸ hf
  obtain ⟨hp, hleads, hkinds⟩ := h c hc
  exact ⟨a, c' c, hp, hleads, hkinds, rfl⟩

/-- A parser that looks at the place only. -/
private theorem takes_of_get {g : Cursor → α} (h : ∀ c, p c = .ok (g c) c)
    (hf : ∀ a, Takes (f a) before after Q) : Takes (p >>= f) before after Q :=
  Takes.bind (R := fun _ => True) (fun c hc => ⟨g c, c, h c, .refl c, hc, trivial⟩) fun a _ => hf a

theorem takes_position {f : Nat → Parser β} (h : ∀ start, Takes (f start) before after Q) :
    Takes (position >>= f) before after Q :=
  takes_of_get (fun _ => rfl) h

theorem takes_prevSpan {f : Span → Parser β} (h : ∀ span, Takes (f span) before after Q) :
    Takes (prevSpan >>= f) before after Q :=
  takes_of_get (fun _ => rfl) h

theorem takes_spanFrom {f : Span → Parser β} {start : Nat}
    (h : ∀ span, Takes (f span) before after Q) : Takes (spanFrom start >>= f) before after Q :=
  takes_of_get (fun _ => rfl) h

theorem takes_peekAt {f : TokenKind → Parser β} {n : Nat} (h : ∀ k, Takes (f k) before after Q) :
    Takes (peekAt n >>= f) before after Q :=
  takes_of_get (fun _ => rfl) h

theorem takes_get {f : Cursor → Parser β} (h : ∀ c, c.kinds = before → Takes (f c) before after Q) :
    Takes (get >>= f) before after Q :=
  fun c hc => h c hc c hc

theorem takes_peek {f : TokenKind → Parser β} (h : Takes (f k) (k :: ks) after Q) :
    Takes (peek >>= f) (k :: ks) after Q := by
  refine takes_of_eq id (fun c hc => ⟨?_, .refl c, hc⟩) h
  rw [← Cursor.kind_of_kinds hc]
  rfl

theorem takes_peekAt_one {f : TokenKind → Parser β} (h : Takes (f l) (k :: l :: ks) after Q) :
    Takes (peekAt 1 >>= f) (k :: l :: ks) after Q := by
  refine takes_of_eq id (fun c hc => ⟨?_, .refl c, hc⟩) h
  rw [← Cursor.kindAt_one_of_kinds hc]
  rfl

theorem takes_check {f : Bool → Parser β} {kind : TokenKind}
    (h : Takes (f (k == kind)) (k :: ks) after Q) : Takes (check kind >>= f) (k :: ks) after Q := by
  refine takes_of_eq id (fun c hc => ⟨?_, .refl c, hc⟩) h
  rw [← Cursor.kind_of_kinds hc]
  rfl

theorem takes_advance {f : Unit → Parser β} (h : Takes (f ()) ks after Q) :
    Takes (advance >>= f) (k :: ks) after Q :=
  takes_of_eq Cursor.advance (fun c hc => ⟨rfl, c.leads_advance, Cursor.kinds_advance hc⟩) h

theorem takes_accept {f : Bool → Parser β} (h : Takes (f true) ks after Q) :
    Takes (accept k >>= f) (k :: ks) after Q := by
  refine Takes.bind (R := (· = true)) ?_ fun _ hb => hb ▸ h
  refine takes_check ?_
  rw [beq_self_eq_true, if_pos rfl]
  exact takes_advance (.pure rfl)

theorem takes_accept_of_ne {f : Bool → Parser β} {kind : TokenKind} (hne : k ≠ kind)
    (h : Takes (f false) (k :: ks) after Q) : Takes (accept kind >>= f) (k :: ks) after Q := by
  refine Takes.bind (R := (· = false)) ?_ fun _ hb => hb ▸ h
  refine takes_check ?_
  rw [beq_eq_false_iff_ne.mpr hne, if_neg Bool.false_ne_true]
  exact .pure rfl

theorem takes_expect {f : Unit → Parser β} (h : Takes (f ()) ks after Q) :
    Takes (expect k >>= f) (k :: ks) after Q := by
  refine Takes.bind (R := fun _ => True) ?_ fun _ _ => h
  refine takes_peek ?_
  rw [if_pos (beq_self_eq_true k)]
  exact fun c hc => ⟨(), c.advance, rfl, c.leads_advance, Cursor.kinds_advance hc, trivial⟩

theorem takes_expectIdent {name : String} (cause : SyntaxCause) :
    Takes (expectIdent cause) (.ident name :: ks) ks fun id => id.name = name :=
  takes_peek (takes_advance (takes_prevSpan fun _ => .pure rfl))

theorem Takes.withBodyBrace (hp : Takes p before after R) (flag : Bool) :
    Takes (withBodyBrace flag p) before after R := by
  intro c hc
  obtain ⟨a, c', hpc, hleads, hc', ha⟩ := hp { c with bodyBrace := flag } hc
  refine ⟨a, { c' with bodyBrace := c.bodyBrace }, ?_, ⟨hleads.rest, rfl⟩, hc', ha⟩
  rw [Parser.withBodyBrace, hpc]

/-- Nothing is added to a value if there is no next step. -/
theorem takes_iterate {step : α → Parser (Option α)} {a : α} {n : Nat} (hn : 0 < n)
    (h : Takes (step a) before before (· = none)) :
    Takes (iterate step n a) before before (· = a) := by
  cases n with
  | zero => cases hn
  | succ n =>
    refine h.bind ?_
    rintro _ rfl
    exact .pure rfl

/-! ### Lists -/

section Lists

variable {ι : Type} {item : Parser α} {kinds : ι → List TokenKind} {R : ι → α → Prop}
  {items : List ι} {sep close last : TokenKind} {rest : List TokenKind}

/-- The item parser takes the kinds of an item in front of a token that is allowed there. -/
def TakesItem (item : Parser α) (allowed : TokenKind → Prop) (ks : List TokenKind) (R : α → Prop) :
    Prop :=
  ∀ k rest, allowed k → Takes item (ks ++ k :: rest) (k :: rest) R

theorem takes_following (hlast : last ≠ sep)
    (hitem : ∀ i ∈ items, TakesItem item (fun k => k = sep ∨ k = last) (kinds i) (R i)) {n : Nat}
    (hn : items.length < n) :
    Takes (following sep item n) (items.flatMap (fun i => sep :: kinds i) ++ last :: rest)
      (last :: rest) (List.Forall₂ R items) := by
  induction items generalizing n with
  | nil =>
    cases n with
    | zero => cases hn
    | succ n => exact takes_accept_of_ne hlast (.pure .nil)
  | cons i items ih =>
    cases n with
    | zero => cases hn
    | succ n =>
      obtain ⟨hi, hitems⟩ := List.forall_mem_cons.mp hitem
      rw [List.flatMap_cons, List.append_assoc, List.cons_append]
      refine takes_accept ?_
      obtain ⟨k, more, hmore, hk⟩ := TokenKind.exists_cons_following sep last kinds items rest
      have hrest := ih hitems (Nat.lt_of_succ_lt_succ hn)
      rw [hmore] at hrest ⊢
      exact (hi k more hk).bind fun a ha => hrest.bind fun as has => .pure (.cons ha has)

theorem takes_separated {first : ι} (hlast : last ≠ sep)
    (hitem : ∀ i ∈ first :: items, TakesItem item (fun k => k = sep ∨ k = last) (kinds i) (R i))
    {n : Nat} (hn : items.length < n) :
    Takes (separated n sep item) (sep.join ((first :: items).map kinds) ++ last :: rest)
    (last :: rest)
      (List.Forall₂ R (first :: items)) := by
  obtain ⟨hfirst, hitems⟩ := List.forall_mem_cons.mp hitem
  rw [List.map_cons, TokenKind.join, List.flatMap_map, List.append_assoc]
  obtain ⟨k, more, hmore, hk⟩ := TokenKind.exists_cons_following sep last kinds items rest
  have hrest : Takes (following sep item n)
      (items.flatMap (fun i => sep :: kinds i) ++ last :: rest) (last :: rest)
        (List.Forall₂ R items) :=
    takes_following hlast hitems hn
  rw [hmore] at hrest ⊢
  exact (hfirst k more hk).bind fun a ha => hrest.bind fun as has => .pure (.cons ha has)

/-- Whether a list goes on at the token. -/
def Continues (close k : TokenKind) : Prop :=
  k ≠ close ∧ k ≠ .eof

theorem takes_commaList (hclose : close ≠ .punct .comma)
    (hitem : ∀ i ∈ items,
      TakesItem item (fun k => k = .punct .comma ∨ k = close) (kinds i) (R i) ∧
        ∃ k ks, kinds i = k :: ks ∧ Continues close k) {n : Nat} (hn : items.length ≤ n) (hpos :
        0 < n) :
    Takes (commaList close item n)
      (TokenKind.join (.punct .comma) (items.map kinds) ++ close :: rest) (close :: rest)
      (List.Forall₂ R items) := by
  induction items generalizing n with
  | nil =>
    cases n with
    | zero => cases hpos
    | succ n =>
      refine takes_check (takes_check ?_)
      rw [beq_self_eq_true, Bool.true_or, if_pos rfl]
      exact .pure .nil
  | cons i items ih =>
    cases n with
    | zero => cases hpos
    | succ n =>
      obtain ⟨⟨hi, k, ks, hk, hopen⟩, hitems⟩ := List.forall_mem_cons.mp hitem
      rw [hk] at hi
      rw [List.map_cons, hk, TokenKind.join, List.append_assoc]
      refine takes_check (takes_check ?_)
      rw [beq_eq_false_iff_ne.mpr hopen.1, beq_eq_false_iff_ne.mpr hopen.2, Bool.or_self,
        if_neg Bool.false_ne_true]
      cases items with
      | nil =>
        refine (hi close rest (.inr rfl)).bind fun a ha => takes_accept_of_ne hclose ?_
        exact .pure (.cons ha .nil)
      | cons j items =>
        refine (hi _ _ (.inl rfl)).bind fun a ha => takes_accept ?_
        have hlen : (j :: items).length ≤ n := Nat.le_of_succ_le_succ hn
        exact (ih hitems hlen (Nat.lt_of_lt_of_le (Nat.succ_pos _) hlen)).bind fun as has =>
          .pure (.cons ha has)

private theorem takes_items (hclose : close ≠ .punct .semi)
    (hitem : ∀ i ∈ items, TakesItem item (· = .punct .semi) (kinds i) (R i) ∧
      ∃ k ks, kinds i = k :: ks ∧ Continues close k ∧ k ≠ .punct .semi) {n : Nat}
    (hn : items.length < n) (done : List α) :
    Takes (Parser.items close (fun _ => do
        let a ← item
        unless ← check close do
          expect Punct.semi
        return a) n done)
      (items.flatMap (fun i => kinds i ++ [.punct .semi]) ++ close :: rest) (close :: rest)
      fun as => ∃ new, as = done.reverse ++ new ∧ List.Forall₂ R items new := by
  induction items generalizing n done with
  | nil =>
    cases n with
    | zero => cases hn
    | succ n =>
      refine takes_check (takes_check ?_)
      rw [beq_self_eq_true, Bool.true_or, if_pos rfl]
      exact .pure ⟨[], (List.append_nil _).symm, .nil⟩
  | cons i items ih =>
    cases n with
    | zero => cases hn
    | succ n =>
      obtain ⟨⟨hi, k, ks, hk, hopen, hsemi⟩, hitems⟩ := List.forall_mem_cons.mp hitem
      have hrest := fun a => ih hitems (Nat.lt_of_succ_lt_succ hn) (a :: done)
      rw [List.flatMap_cons, List.append_assoc, List.append_assoc, List.singleton_append]
      generalize items.flatMap (fun i => kinds i ++ [.punct .semi]) ++ close :: rest =
        more at hrest ⊢
      have hread := hi (.punct .semi) more rfl
      rw [hk] at hread ⊢
      refine takes_check (takes_check ?_)
      rw [beq_eq_false_iff_ne.mpr hopen.1, beq_eq_false_iff_ne.mpr hopen.2, Bool.or_self,
        if_neg Bool.false_ne_true]
      refine takes_accept_of_ne hsemi (Takes.bind (?_ : Takes _ _ more (R i)) fun a ha => ?_)
      · refine hread.bind fun a ha => takes_check ?_
        rw [beq_eq_false_iff_ne.mpr hclose.symm]
        exact takes_expect (.pure ha)
      · refine (hrest a).mono fun as => ?_
        rintro ⟨new, rfl, hnew⟩
        exact ⟨a :: new, by simp, .cons ha hnew⟩

theorem takes_lines (hclose : close ≠ .punct .semi)
    (hitem : ∀ i ∈ items, TakesItem item (· = .punct .semi) (kinds i) (R i) ∧
      ∃ k ks, kinds i = k :: ks ∧ Continues close k ∧ k ≠ .punct .semi) {n : Nat}
    (hn : items.length < n) :
    Takes (lines n close item)
      (items.flatMap (fun i => kinds i ++ [.punct .semi]) ++ close :: rest) (close :: rest)
      (List.Forall₂ R items) :=
  (takes_items hclose hitem hn []).mono fun _ ⟨_, heq, hnew⟩ => heq ▸ hnew

end Lists

end Parser

end ServiceSplit
