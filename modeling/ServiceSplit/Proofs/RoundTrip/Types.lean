import ServiceSplit.Parser.Statements
import ServiceSplit.Proofs.Printer.Spelling
import ServiceSplit.Proofs.RoundTrip.Core
import ServiceSplit.Proofs.Tree.Shape

/-!
# Types that are read back

A type is read back if its pieces are read as tokens that the parser of types takes for the same
type, wherever they stand in front of something that ends a type. This file proves it of a type from
its parts, for type names, pointers, slices, arrays, maps and channels.

What stands in a parameter list is told apart by the tokens behind a name, up to the end of a
bracket. So it is part of the property that brackets are closed, and how the type is taken behind a
name and at the start of an entry.
-/

namespace ServiceSplit

open ServiceSplit.Parser

/-! ### Entries of parameter lists by kinds -/

namespace ParamEntry

/-- Whether the bracket that is open in front of tokens of some kinds closes before a comma or a
closing parenthesis. -/
def closesOn (depth : Nat) : List TokenKind → Bool
  | [] => false
  | k :: ks =>
    match k with
    | .punct .lbracket => closesOn (depth + 1) ks
    | .punct .rbracket =>
      if depth ≤ 1 then
        match ks with
        | next :: _ => next == .punct .comma || next == .punct .rparen
        | [] => false
      else
        closesOn (depth - 1) ks
    | .eof => false
    | _ => closesOn depth ks

/-- The shape of an entry that starts with an identifier, by the kinds of the tokens behind it. -/
def shapeOn : List TokenKind → Shape
  | [] => .named
  | k :: ks =>
    match k with
    | .punct .comma | .punct .rparen => .bare
    | .punct .dot => .typed
    | .punct .lbracket => if closesOn 1 ks then .typed else .named
    | _ => .named

theorem bracketCloses_eq (depth : Nat) (ts : List Token) :
    bracketCloses depth ts = closesOn depth (ts.map Token.kind) := by
  induction ts generalizing depth with
  | nil => rfl
  | cons t ts ih =>
    obtain ⟨kind, start, stop⟩ := t
    cases kind with
    | punct p =>
      cases p with
      | lbracket => exact ih _
      | rbracket =>
        show (if depth ≤ 1 then _ else _) = if depth ≤ 1 then _ else _
        rw [ih]
        cases ts <;> rfl
      | _ => exact ih _
    | eof => rfl
    | _ => exact ih _

theorem shape_eq (ts : List Token) : shape ts = shapeOn (ts.map Token.kind) := by
  cases ts with
  | nil => rfl
  | cons t ts =>
    obtain ⟨kind, start, stop⟩ := t
    cases kind with
    | punct p =>
      cases p with
      | lbracket =>
        show (if bracketCloses 1 ts then _ else _) = _
        rw [bracketCloses_eq]
        rfl
      | _ => rfl
    | _ => rfl

theorem closesOn_rbracket {k : TokenKind} (hk : k.startsType = true) (rest : List TokenKind) :
    closesOn 1 (.punct .rbracket :: k :: rest) = false := by
  show (k == .punct .comma || k == .punct .rparen) = false
  cases k with
  | punct p => cases p <;> first | rfl | cases hk
  | _ => rfl

/-- Whether the token is neither a bracket nor the end of the text. -/
def isNeutral : TokenKind → Bool
  | .punct .lbracket | .punct .rbracket | .eof => false
  | _ => true

/-- Every bracket that is opened by tokens of these kinds is closed by them. -/
def Balanced (ks : List TokenKind) : Prop :=
  ∀ depth rest, 0 < depth → closesOn depth (ks ++ rest) = closesOn depth rest

namespace Balanced

variable {ks ls : List TokenKind}

theorem nil : Balanced [] :=
  fun _ _ _ => rfl

theorem append (h : Balanced ks) (h' : Balanced ls) : Balanced (ks ++ ls) := by
  intro depth rest hdepth
  rw [List.append_assoc, h depth _ hdepth, h' depth rest hdepth]

theorem cons {k : TokenKind} (h : Balanced ks) (hk : isNeutral k = true) : Balanced (k :: ks) := by
  intro depth rest hdepth
  rw [List.cons_append, closesOn.eq_def]
  dsimp only
  split
  · cases hk
  · cases hk
  · cases hk
  · exact h depth rest hdepth

theorem single {k : TokenKind} (hk : isNeutral k = true) : Balanced [k] :=
  nil.cons hk

/-- Two tokens. -/
theorem pair {k l : TokenKind} (hk : isNeutral k = true) (hl : isNeutral l = true) :
    Balanced [k, l] :=
  (single hl).cons hk

/-- A bracket and what is in it. -/
theorem brackets (h : Balanced ks) : Balanced (.punct .lbracket :: (ks ++ [.punct .rbracket])) := by
  intro depth rest hdepth
  have hnot : ¬depth + 1 ≤ 1 := by omega
  calc closesOn depth (.punct .lbracket :: (ks ++ [.punct .rbracket]) ++ rest)
      = closesOn (depth + 1) (ks ++ (.punct .rbracket :: rest)) := by
        rw [List.cons_append, List.append_assoc]
        rfl
    _ = closesOn (depth + 1) (.punct .rbracket :: rest) := h (depth + 1) _ (Nat.succ_pos depth)
    _ = closesOn depth rest := by
        rw [closesOn.eq_def]
        exact if_neg hnot

theorem flatMap {ι : Type} {items : List ι} {kinds : ι → List TokenKind}
    (h : ∀ i ∈ items, Balanced (kinds i)) : Balanced (items.flatMap kinds) := by
  induction items with
  | nil => exact nil
  | cons i items ih =>
    obtain ⟨hi, hitems⟩ := List.forall_mem_cons.mp h
    exact hi.append (ih hitems)

theorem join {kss : List (List TokenKind)} (h : ∀ ks ∈ kss, Balanced ks) {sep : TokenKind}
    (hsep : isNeutral sep = true) : Balanced (sep.join kss) := by
  cases kss with
  | nil => exact nil
  | cons ks kss =>
    obtain ⟨hks, hkss⟩ := List.forall_mem_cons.mp h
    exact hks.append (.flatMap fun ls hls => (hkss ls hls).cons hsep)

end Balanced

/-- A name in front of a slice or array type is the name of a parameter. -/
theorem shapeOn_lbracket {pre : List TokenKind} (hpre : Balanced pre) {k : TokenKind}
    (hk : k.startsType = true) {rest : List TokenKind} :
    shapeOn (.punct .lbracket :: (pre ++ .punct .rbracket :: k :: rest)) = .named := by
  show (if closesOn 1 _ then Shape.typed else Shape.named) = _
  rw [hpre 1 _ Nat.one_pos, closesOn_rbracket hk]
  rfl

end ParamEntry

/-! ### What ends a type -/

@[simp] theorem Grammar.bound_ofBound (n : Nat) : (Grammar.ofBound n).bound = n := by
  induction n with
  | zero => rfl
  | succ n ih => exact congrArg Nat.succ ih

/-- Values that are known up to a function. -/
theorem map_eq_of_forall₂ {α β γ : Type} {f : α → γ} {g : β → γ} {as : List α} {bs : List β}
    (h : List.Forall₂ (fun a b => g b = f a) as bs) : bs.map g = as.map f := by
  induction h with
  | nil => rfl
  | cons hb _ ih => rw [List.map_cons, List.map_cons, hb, ih]

/-- Values with what each of them has. -/
theorem exists_zip {α β : Type} {P : α → β → Prop} {as : List α} (h : ∀ a ∈ as, ∃ b, P a b) :
    ∃ ps : List (α × β), ps.map Prod.fst = as ∧ ∀ p ∈ ps, P p.1 p.2 := by
  induction as with
  | nil => exact ⟨[], rfl, nofun⟩
  | cons a as ih =>
    obtain ⟨⟨b, hb⟩, has⟩ := List.forall_mem_cons.mp h
    obtain ⟨ps, hps, hall⟩ := ih has
    exact ⟨(a, b) :: ps, by rw [List.map_cons, hps], List.forall_mem_cons.mpr ⟨hb, hall⟩⟩

/-- The pieces of several parts, each read as tokens of its own. -/
theorem exists_mapM_spells {ι : Type} {print : ι → Printed} {kinds : ι → List TokenKind}
    {items : List ι} (h : ∀ i ∈ items, ∃ ps, print i = .ok ps ∧ Piece.Spells ps (kinds i)) :
    ∃ pss, items.mapM print = .ok pss ∧ List.Forall₂ Piece.Spells pss (items.map kinds) := by
  induction items with
  | nil => exact ⟨[], rfl, .nil⟩
  | cons i items ih =>
    obtain ⟨hi, hitems⟩ := List.forall_mem_cons.mp h
    obtain ⟨ps, hprint, hspells⟩ := hi
    obtain ⟨pss, hprints, hspells'⟩ := ih hitems
    refine ⟨ps :: pss, ?_, .cons hspells hspells'⟩
    rw [List.mapM_cons, hprint, hprints]
    rfl

/-- Whether the token may stand behind a type. -/
def TokenKind.endsType : TokenKind → Bool
  | punct .comma | punct .rparen | punct .rbracket | punct .semi | punct .pipe => true
  | literal .string _ => true
  | _ => false

namespace TypeExpr

/-- The type is read back from tokens of the kinds `ks`, but for places and parentheses. -/
structure ReadsAs (t : TypeExpr) (ks : List TokenKind) : Prop where
  /-- The pieces of the type are read as these tokens. -/
  spells : ∀ indent, ∃ ps, printType indent t = .ok ps ∧ Piece.Spells ps ks
  starts : ∃ k more, ks = k :: more ∧ k.startsType = true
  balanced : ParamEntry.Balanced ks
  /-- A name in front of the type is the name of a parameter. -/
  named : ∀ rest, ParamEntry.shapeOn (ks ++ rest) = .named
  /-- At the start of an entry of a parameter list, the type is read as one. -/
  entry : (∃ name, ks = [.ident name] ∧ t.core = .named name) ∨
    ∀ name more, ks = .ident name :: more → ∀ k rest, k = .punct .comma ∨ k = .punct .rparen →
      ParamEntry.shapeOn (more ++ k :: rest) = .typed
  /-- Only the type of a channel to receive from starts with an arrow. -/
  arrow : ∀ more, ks = .punct .arrow :: more → ∃ u, t = .chan .recv u
  /-- A type that can be embedded is read as embedded. -/
  embeds : t.isEmbedded = true → ∀ k rest, k = .punct .semi ∨ (∃ raw, k = .literal .string raw) →
    ∃ a b more, ks ++ k :: rest = a :: b :: more ∧ Grammar.embeds a b = true
  /-- In parentheses, the type is read as the only result of a function. -/
  result : ∀ more, ks = .punct .lparen :: more → ∀ n, ks.length < n →
    TakesItem (Grammar.ofBound n).parameters (·.endsType = true) ks fun fs =>
      fs.map Field.core = [⟨[], t.core, none, .synthetic⟩]
  /-- The parser of types takes these tokens for the type. -/
  takes : ∀ n, ks.length < n →
    TakesItem (Grammar.ofBound n).type (·.endsType = true) ks fun u => u.core = t.core

/-- The type is read back from its text. -/
def ReadsBack (t : TypeExpr) : Prop :=
  ∃ ks, t.ReadsAs ks

variable {t : TypeExpr} {ks : List TokenKind}

namespace ReadsAs

theorem pointer (h : t.ReadsAs ks) : (TypeExpr.pointer t).ReadsAs (.punct .star :: ks) where
  spells indent := by
    obtain ⟨ps, hprint, hspells⟩ := h.spells indent
    refine ⟨.mark .star :: ps, by rw [printType, hprint]; rfl, ?_⟩
    exact hspells.cons (Piece.initial_punct (by decide) (by decide) (by decide)) (by decide)
  starts := ⟨_, _, rfl, rfl⟩
  balanced := h.balanced.cons rfl
  named rest := rfl
  entry := .inr nofun
  arrow := nofun
  embeds _ k rest _ := by
    obtain ⟨first, more, rfl, -⟩ := h.starts
    exact ⟨_, _, _, rfl, rfl⟩
  result := nofun
  takes n hn k rest hk := by
    cases n with
    | zero => cases hn
    | succ n =>
      refine takes_peek (takes_advance ?_)
      refine (h.takes n (Nat.lt_of_succ_lt_succ hn) k rest hk).bind fun u hu => .pure ?_
      rw [TypeExpr.core, TypeExpr.core, hu]

theorem slice (h : t.ReadsAs ks) :
    (TypeExpr.slice t).ReadsAs (.punct .lbracket :: .punct .rbracket :: ks) where
  spells indent := by
    obtain ⟨ps, hprint, hspells⟩ := h.spells indent
    refine ⟨.mark .lbracket :: .mark .rbracket :: ps, by rw [printType, hprint]; rfl, ?_⟩
    exact (hspells.cons Piece.initial_bracket.2 (by decide)).cons Piece.initial_bracket.1
      (by decide)
  starts := ⟨_, _, rfl, rfl⟩
  balanced := (ParamEntry.Balanced.nil.brackets).append h.balanced
  named rest := by
    obtain ⟨k, more, rfl, hk⟩ := h.starts
    exact ParamEntry.shapeOn_lbracket .nil hk
  entry := .inr nofun
  arrow := nofun
  embeds := nofun
  result := nofun
  takes n hn k rest hk := by
    cases n with
    | zero => cases hn
    | succ n =>
      refine takes_peek (takes_advance (takes_accept ?_))
      have hlen : ks.length < n := by
        simp only [List.length_cons] at hn
        omega
      refine (h.takes n hlen k rest hk).bind fun u hu => .pure ?_
      rw [TypeExpr.core, TypeExpr.core, hu]

theorem map {u : TypeExpr} {ls : List TokenKind} (h : t.ReadsAs ks) (h' : u.ReadsAs ls) :
    (TypeExpr.map t u).ReadsAs
      (.keyword .kwMap :: .punct .lbracket :: (ks ++ .punct .rbracket :: ls)) where
  spells indent := by
    obtain ⟨ps, hprint, hspells⟩ := h.spells indent
    obtain ⟨qs, hprint', hspells'⟩ := h'.spells indent
    refine ⟨_, by rw [printType, hprint, hprint']; rfl, ?_⟩
    exact (hspells.brackets_append hspells').cons_word (TokenKind.isPlain_keyword _) (fun _ => rfl)
      (by decide) (.inr rfl)
  starts := ⟨_, _, rfl, rfl⟩
  balanced := by
    have hboth := h.balanced.brackets.append h'.balanced
    rw [List.cons_append, List.append_assoc] at hboth
    exact hboth.cons rfl
  named rest := rfl
  entry := .inr nofun
  arrow := nofun
  embeds := nofun
  result := nofun
  takes n hn k rest hk := by
    cases n with
    | zero => cases hn
    | succ n =>
      simp only [List.length_cons, List.length_append] at hn
      rw [List.cons_append, List.cons_append, List.append_assoc, List.cons_append]
      refine takes_peek (takes_advance (takes_expect ?_))
      refine (h.takes n (by omega) _ _ rfl).bind fun key hkey => takes_expect ?_
      refine (h'.takes n (by omega) k rest hk).bind fun value hvalue => .pure ?_
      rw [TypeExpr.core, TypeExpr.core, hkey, hvalue]

end ReadsAs

/-- A type in parentheses is taken as one. -/
theorem ReadsAs.takes_paren (h : t.ReadsAs ks) {n : Nat} (hn : ks.length + 1 < n)
    (rest : List TokenKind) : Takes (Grammar.ofBound n).type
      (.punct .lparen :: (ks ++ .punct .rparen :: rest)) rest fun u => u.core = t.core := by
  cases n with
  | zero => cases hn
  | succ n =>
    refine takes_peek (takes_advance ?_)
    refine (h.takes n (by omega) _ rest rfl).bind fun u hu => takes_expect (.pure ?_)
    rw [TypeExpr.core, hu]

/-! ### Lengths of arrays -/

/-- The parser of expressions takes a name or a literal in front of a closing bracket. -/
theorem takes_leaf {k : TokenKind} {e : Expr} (hk : e.leaf? = some k) {n : Nat} (hn : 1 < n)
    (rest : List TokenKind) : Takes (Grammar.ofBound n).expr (k :: .punct .rbracket :: rest)
      (.punct .rbracket :: rest) fun x => x.leaf? = some k := by
  obtain ⟨n, rfl⟩ : ∃ m, n = m + 2 := ⟨n - 2, by omega⟩
  have hoperand : Takes (Grammar.ofBound (n + 1)).operand (k :: .punct .rbracket :: rest)
      (.punct .rbracket :: rest) fun x => x.leaf? = some k := by
    refine takes_position fun _ => ?_
    rcases Expr.leaf?_eq_some_iff.mp hk with ⟨id, -, rfl⟩ | ⟨kind, raw, span, -, rfl⟩
    · exact takes_peek (takes_advance (takes_prevSpan fun _ => .pure rfl))
    · exact takes_peek (takes_advance (takes_prevSpan fun _ => .pure rfl))
  have hnext : k ≠ .punct .arrow ∧ k ≠ .punct .star ∧ UnaryOp.ofToken? k = none := by
    rcases Expr.leaf?_eq_some_iff.mp hk with ⟨id, -, rfl⟩ | ⟨kind, raw, span, -, rfl⟩ <;>
      exact ⟨nofun, nofun, rfl⟩
  have hunary : Takes (Grammar.ofBound (n + 1)).unaryExpr (k :: .punct .rbracket :: rest)
      (.punct .rbracket :: rest) fun x => x.leaf? = some k := by
    refine takes_position fun _ => takes_peek (takes_peekAt fun _ => ?_)
    rw [beq_eq_false_iff_ne.mpr hnext.1, beq_eq_false_iff_ne.mpr hnext.2.1, Bool.false_and,
      if_neg Bool.false_ne_true, if_neg Bool.false_ne_true, hnext.2.2]
    refine hoperand.bind fun x hx => ?_
    have hextend : Takes ((Grammar.ofBound (n + 1)).extend x) (.punct .rbracket :: rest)
        (.punct .rbracket :: rest) (· = none) := by
      unfold Grammar.extend
      exact takes_peek (.pure rfl)
    exact (takes_iterate (Nat.succ_pos _) hextend).mono fun _ hy => hy ▸ hx
  refine hunary.bind fun x hx => ?_
  have hstep : Takes ((Grammar.ofBound (n + 1)).binaryStep 1 x) (.punct .rbracket :: rest)
      (.punct .rbracket :: rest) (· = none) := by
    unfold Grammar.binaryStep
    exact takes_peek (.pure rfl)
  exact (takes_iterate (Nat.succ_pos _) hstep).mono fun _ hy => hy ▸ hx

private theorem ne_of_leaf? {e : Expr} {k : TokenKind} (hk : e.leaf? = some k) :
    k ≠ .punct .rbracket ∧ k ≠ .punct .ellipsis ∧ ParamEntry.Balanced [k] := by
  rcases Expr.leaf?_eq_some_iff.mp hk with ⟨id, -, rfl⟩ | ⟨kind, raw, span, -, rfl⟩ <;>
    exact ⟨nofun, nofun, .single rfl⟩

theorem ReadsAs.array (h : t.ReadsAs ks) {e : Expr} {k : TokenKind} (hk : e.leaf? = some k)
    (hplain : k.isPlain = true) :
    (TypeExpr.array (some e) t).ReadsAs (.punct .lbracket :: k :: .punct .rbracket :: ks) where
  spells indent := by
    obtain ⟨ps, hprint, hspells⟩ := h.spells indent
    have hleaf : printExpr indent 1 e = .ok [.token k] := by
      have hsome := TokenKind.isEmpty_text_of_isPlain hplain
      rcases Expr.leaf?_eq_some_iff.mp hk with ⟨id, rfl, rfl⟩ | ⟨kind, raw, span, rfl, rfl⟩
      · rw [printExpr, Ident.print, show id.name.isEmpty = false from hsome]
        rfl
      · rw [printExpr, show raw.isEmpty = false from hsome]
        rfl
    have htoken : Piece.Spells [.token k] [k] := by
      rcases Expr.leaf?_eq_some_iff.mp hk with ⟨id, -, rfl⟩ | ⟨kind, raw, span, -, rfl⟩
      · exact .ident hplain
      · exact .token (Piece.final_literal hplain) (Piece.head?_ne hplain nofun)
    refine ⟨Piece.brackets [.token k] ++ ps, ?_, htoken.brackets_append hspells⟩
    rw [printType, printExpr?, hleaf, hprint]
    rfl
  starts := ⟨_, _, rfl, rfl⟩
  balanced := (ne_of_leaf? hk).2.2.brackets.append h.balanced
  named rest := by
    obtain ⟨l, more, rfl, hl⟩ := h.starts
    exact ParamEntry.shapeOn_lbracket (ne_of_leaf? hk).2.2 hl
  entry := .inr nofun
  arrow := nofun
  embeds := nofun
  result := nofun
  takes n hn l rest hl := by
    cases n with
    | zero => cases hn
    | succ n =>
      simp only [List.length_cons] at hn
      rw [List.cons_append, List.cons_append, List.cons_append]
      refine takes_peek (takes_advance (takes_accept_of_ne (ne_of_leaf? hk).1 ?_))
      refine takes_accept_of_ne (ne_of_leaf? hk).2.1 ?_
      refine Takes.bind (R := fun o => ∃ x, o = some x ∧ x.leaf? = some k)
        (((takes_leaf hk (by omega) _).withBodyBrace false).map fun x hx => ⟨x, rfl, hx⟩) ?_
      rintro _ ⟨x, rfl, hx⟩
      refine takes_expect ((h.takes n (by omega) l rest hl).bind fun u hu => .pure ?_)
      rw [TypeExpr.core, TypeExpr.core, hu, Option.map_some, Option.map_some,
        Expr.core_of_leaf? hx hk]

/-! ### Channels -/

/-- The kinds in front of the element type of a channel type. -/
def chanKinds : ChanDir → List TokenKind
  | .both => [.keyword .kwChan]
  | .send => [.keyword .kwChan, .punct .arrow]
  | .recv => [.punct .arrow, .keyword .kwChan]

private theorem spells_chan {ps : List Piece} (h : Piece.Spells ps ks) (dir : ChanDir) :
    Piece.Spells (dir.print ++ ps) (chanKinds dir ++ ks) := by
  have hchan : Piece.Spells (.word .kwChan :: .blank :: ps) (.keyword .kwChan :: ks) :=
    .cons_blank (TokenKind.isPlain_keyword _) (by decide) h
  cases dir with
  | both => exact hchan
  | send =>
    have harrow : Piece.Spells (.mark .arrow :: .blank :: ps) (.punct .arrow :: ks) :=
      .cons_blank (Lexeme.isPlain_punct _) (by decide) h
    refine .cons_of_stops (TokenKind.isPlain_keyword _) (by decide) harrow fun c hc _ => ?_
    cases (Piece.firstChar?_token rfl _).symm.trans hc
    decide
  | recv =>
    exact .cons (Piece.initial_punct (by decide) (by decide) (by decide)) (by decide) hchan

/-- A channel type is read back if its element type is read back from what is printed for it. -/
private theorem readsAs_chan {dir : ChanDir}
    (hprint : ∀ indent, ∃ ps, printType indent (.chan dir t) = .ok (dir.print ++ ps) ∧
      Piece.Spells ps ks)
    (hstarts : ∃ k more, ks = k :: more ∧ (dir = .both → k ≠ .punct .arrow))
    (hbalanced : ParamEntry.Balanced ks)
    (htakes : ∀ n, ks.length < n →
      TakesItem (Grammar.ofBound n).type (·.endsType = true) ks fun u => u.core = t.core) :
    (TypeExpr.chan dir t).ReadsAs (chanKinds dir ++ ks) where
  spells indent := by
    obtain ⟨ps, hps, hspells⟩ := hprint indent
    exact ⟨_, hps, spells_chan hspells dir⟩
  starts := by cases dir <;> exact ⟨_, _, rfl, rfl⟩
  balanced := by
    refine .append ?_ hbalanced
    cases dir with
    | both => exact .single rfl
    | send => exact .pair rfl rfl
    | recv => exact .pair rfl rfl
  named rest := by cases dir <;> rfl
  entry := .inr (by cases dir <;> exact nofun)
  arrow := by
    cases dir with
    | recv => exact fun _ _ => ⟨t, rfl⟩
    | _ => exact nofun
  embeds := nofun
  result := by cases dir <;> exact nofun
  takes n hn k rest hk := by
    cases n with
    | zero => cases hn
    | succ n =>
      have hlen : ks.length < n := by
        cases dir <;> simp only [chanKinds, List.length_append, List.length_cons,
          List.length_nil] at hn <;> omega
      have hdone : Takes (do return TypeExpr.chan dir (← (Grammar.ofBound n).type))
          (ks ++ k :: rest) (k :: rest) fun u => u.core = (TypeExpr.chan dir t).core := by
        refine (htakes n hlen k rest hk).bind fun u hu => .pure ?_
        rw [TypeExpr.core, TypeExpr.core, hu]
      cases dir with
      | both =>
        obtain ⟨first, more, rfl, hfirst⟩ := hstarts
        exact takes_peek (takes_advance (takes_accept_of_ne (hfirst rfl) hdone))
      | send => exact takes_peek (takes_advance (takes_accept hdone))
      | recv => exact takes_peek (takes_advance (takes_expect hdone))

theorem ReadsAs.chan (h : t.ReadsAs ks) (dir : ChanDir) : (TypeExpr.chan dir t).ReadsBack := by
  cases hparens : dir.parensAround t with
  | false =>
    refine ⟨_, readsAs_chan (fun indent => ?_) ?_ h.balanced h.takes⟩
    · obtain ⟨ps, hprint, hspells⟩ := h.spells indent
      refine ⟨ps, ?_, hspells⟩
      rw [printType, hprint, hparens]
      rfl
    · obtain ⟨k, more, rfl, -⟩ := h.starts
      refine ⟨k, more, rfl, ?_⟩
      rintro rfl rfl
      obtain ⟨u, rfl⟩ := h.arrow more rfl
      cases hparens
  | true =>
    refine ⟨_, readsAs_chan (fun indent => ?_) ⟨.punct .lparen, ks ++ [.punct .rparen], rfl,
      nofun⟩ ?_
      fun n hn k rest hk => ?_⟩
    · obtain ⟨ps, hprint, hspells⟩ := h.spells indent
      refine ⟨_, ?_, hspells.parens⟩
      rw [printType, hprint, hparens]
      rfl
    · exact (h.balanced.append (.single rfl)).cons rfl
    · rw [List.cons_append, List.append_assoc]
      simp only [List.length_cons, List.length_append, List.length_nil] at hn
      exact h.takes_paren (by omega) (k :: rest)

/-! ### Type names -/

/-- The kinds of a name, with the package in front of it. -/
def nameKinds (name : String) : Option String → List TokenKind
  | some pkg => [.ident pkg, .punct .dot, .ident name]
  | none => [.ident name]

/-- The kinds of type arguments. -/
def argKinds (kss : List (List TokenKind)) : List TokenKind :=
  if kss.isEmpty then []
  else .punct .lbracket :: (TokenKind.join (.punct .comma) kss ++ [.punct .rbracket])

/-- Types with the kinds of tokens that they are read back from. -/
abbrev Spelled := List (TypeExpr × List TokenKind)

variable {args : Spelled}

theorem printTypes_eq_mapM (indent : Nat) (ts : List TypeExpr) :
    printTypes indent ts = ts.mapM (printType indent) := by
  induction ts with
  | nil => rfl
  | cons t ts ih => rw [printTypes, List.mapM_cons, ih]

theorem continues_of_startsType {k close : TokenKind} (hk : k.startsType = true)
    (hclose : close.startsType = false) : Continues close k := by
  refine ⟨?_, ?_⟩
  · rintro rfl
    rw [hk] at hclose
    cases hclose
  · rintro rfl
    cases hk

theorem startsType_of_endsType {k : TokenKind} (h : k.endsType = true) : k.startsType = false := by
  cases k with
  | punct p => cases p <;> first | rfl | cases h
  | ident name => cases h
  | keyword kw => cases h
  | _ => rfl

theorem takes_typeArgs (h : ∀ a ∈ args, a.1.ReadsAs a.2) {n : Nat}
    (hn : (TokenKind.join (.punct .comma) (args.map Prod.snd)).length < n) (rest : List TokenKind) :
    Takes (Grammar.ofBound n).typeArgs
      (.punct .lbracket :: (TokenKind.join (.punct .comma) (args.map Prod.snd) ++
        .punct .rbracket :: rest)) rest
      fun ts => cores ts = args.map fun a => a.1.core := by
  have hitem : ∀ a ∈ args, TakesItem (Grammar.ofBound n).type
      (fun k => k = .punct .comma ∨ k = .punct .rbracket) a.2 (fun t => t.core = a.1.core) ∧
        ∃ k ks, a.2 = k :: ks ∧ Continues (.punct .rbracket) k := by
    intro a ha
    have hlen := TokenKind.length_le_join (.punct .comma) (List.mem_map_of_mem (f := Prod.snd) ha)
    refine ⟨fun k rest hk => (h a ha).takes n (by omega) k rest ?_, ?_⟩
    · rcases hk with rfl | rfl <;> rfl
    · obtain ⟨k, more, hks, hk⟩ := (h a ha).starts
      exact ⟨k, more, hks, continues_of_startsType hk rfl⟩
  have hcount : args.length ≤ n := by
    have hne : ∀ ks ∈ args.map Prod.snd, ks ≠ [] := by
      intro ks hks
      obtain ⟨a, ha, rfl⟩ := List.mem_map.mp hks
      obtain ⟨k, more, hcons, -⟩ := (h a ha).starts
      exact hcons ▸ List.cons_ne_nil k more
    have hle := TokenKind.length_le_length_join (.punct .comma) hne
    rw [List.length_map] at hle
    omega
  have hlist : Takes (commaList (.punct .rbracket) (Grammar.ofBound n).type
    (Grammar.ofBound n).bound)
      (TokenKind.join (.punct .comma) (args.map Prod.snd) ++ .punct .rbracket :: rest)
      (.punct .rbracket :: rest) (List.Forall₂ (fun a t => t.core = a.1.core) args) := by
    rw [Grammar.bound_ofBound]
    exact takes_commaList (by decide) hitem hcount (by omega)
  refine takes_expect (hlist.bind fun ts hts => takes_expect (.pure ?_))
  rw [cores_eq_map, map_eq_of_forall₂ hts]

/-- The pieces of a name with its type arguments. -/
private theorem spells_instance {name : String} (hname : (TokenKind.ident name).isPlain = true)
    {pss : List (List Piece)} {kss : List (List TokenKind)}
    (h : List.Forall₂ Piece.Spells pss kss) :
    Piece.Spells (.ident name :: layOutTypeParams pss) (.ident name :: argKinds kss) := by
  cases h with
  | nil => exact .ident hname
  | @cons ps ks pss kss hps hrest =>
    have hcommas := (Piece.Spells.commas (List.cons_ne_nil _ _) (.cons hps hrest)).brackets
    exact .cons_word hname (fun _ => rfl) (Piece.head?_ne hname nofun) (.inr rfl) hcommas

private theorem spells_name {pkg : Option String} {name : String}
    (hpkg : ∀ p ∈ pkg, (TokenKind.ident p).isPlain = true)
    (hname : (TokenKind.ident name).isPlain = true) {pss : List (List Piece)}
    {kss : List (List TokenKind)} (h : List.Forall₂ Piece.Spells pss kss) :
    Piece.Spells ((match pkg with
        | some p => [.ident p, .mark .dot, .ident name]
        | none => [.ident name]) ++ layOutTypeParams pss) (nameKinds name pkg ++ argKinds kss) := by
  have hinstance := spells_instance hname h
  cases pkg with
  | none => exact hinstance
  | some p =>
    have hp := hpkg p rfl
    have hdot : Piece.Spells (.mark .dot :: .ident name :: layOutTypeParams pss)
        (.punct .dot :: .ident name :: argKinds kss) := by
      refine .cons_of_stops (Lexeme.isPlain_punct _) (by decide) hinstance fun c hc _ => ?_
      obtain ⟨d, ds, htext, hstart, -⟩ := TokenKind.exists_of_isPlain_ident hname
      cases (Piece.firstChar?_token (show (TokenKind.ident name).text.toList = _ from htext)
        _).symm.trans hc
      exact TokenKind.stops_dot hstart
    refine .cons_of_stops hp (Piece.head?_ne hp nofun) hdot fun c hc _ => ?_
    cases (Piece.firstChar?_token rfl _).symm.trans hc
    exact (by decide : (!Text.isWordChar '.') = true)

private theorem balanced_of_mem (h : ∀ a ∈ args, a.1.ReadsAs a.2) :
    ∀ ks ∈ args.map Prod.snd, ParamEntry.Balanced ks := by
  intro ks hks
  obtain ⟨a, ha, rfl⟩ := List.mem_map.mp hks
  exact (h a ha).balanced

private theorem shapeOn_argKinds {kss : List (List TokenKind)}
    (hbalanced : ∀ ks ∈ kss, ParamEntry.Balanced ks) (hne : kss ≠ []) {k : TokenKind}
    (hk : k = .punct .comma ∨ k = .punct .rparen) (rest : List TokenKind) :
    ParamEntry.shapeOn (argKinds kss ++ k :: rest) = .typed := by
  rw [argKinds, if_neg (by simpa using hne), List.cons_append, List.append_assoc]
  show (if ParamEntry.closesOn 1 _ then ParamEntry.Shape.typed else ParamEntry.Shape.named) = _
  rw [ParamEntry.Balanced.join hbalanced rfl 1 _ Nat.one_pos]
  rcases hk with rfl | rfl <;> rfl

/-- Type arguments, or none, behind the name of a type. -/
private theorem takes_instance (h : ∀ a ∈ args, a.1.ReadsAs a.2) {n : Nat}
    (hn : (argKinds (args.map Prod.snd)).length < n) {k : TokenKind} (hk : k.endsType = true)
    (rest : List TokenKind) (pkg : Option String) (name : String) :
    Takes (do
        if (← check (.punct .lbracket)) && (← peekAt 1) != .punct .rbracket then
          return TypeExpr.name pkg name (← (Grammar.ofBound n).typeArgs)
        else
          return TypeExpr.name pkg name [])
      (argKinds (args.map Prod.snd) ++ k :: rest) (k :: rest)
      fun u => u.core = (TypeExpr.name pkg name (args.map Prod.fst)).core := by
  cases args with
  | nil =>
    refine takes_check (takes_peekAt fun next => ?_)
    have hne : k ≠ .punct .lbracket := by
      rintro rfl
      cases hk
    rw [beq_eq_false_iff_ne.mpr hne, Bool.false_and, if_neg Bool.false_ne_true]
    exact .pure rfl
  | cons a args =>
    obtain ⟨first, more, hfirst, hstarts⟩ := (h a List.mem_cons_self).starts
    have hne : first ≠ .punct .rbracket := by
      rintro rfl
      cases hstarts
    have hargs := takes_typeArgs h (n := n) (by
      simp only [argKinds, List.map_cons, List.isEmpty_cons, Bool.false_eq_true, if_false,
        List.length_cons, List.length_append] at hn ⊢
      omega) (k :: rest)
    rw [argKinds, if_neg (by simp), List.cons_append, List.append_assoc, List.singleton_append]
    rw [List.map_cons, hfirst, TokenKind.join, List.append_assoc, List.cons_append] at hargs ⊢
    refine takes_check (takes_peekAt_one ?_)
    rw [beq_self_eq_true, Bool.true_and, bne_iff_ne.mpr hne, if_pos rfl]
    refine hargs.bind fun ts hts => .pure ?_
    rw [TypeExpr.core, TypeExpr.core, hts, cores_eq_map, List.map_map]
    rfl

/-- Behind the name of a type stands no dot. -/
private theorem exists_argKinds (kss : List (List TokenKind)) {k : TokenKind}
    (hk : k.endsType = true)
    (rest : List TokenKind) :
    ∃ l more, argKinds kss ++ k :: rest = l :: more ∧ l ≠ .punct .dot := by
  cases kss with
  | nil =>
    refine ⟨k, rest, rfl, ?_⟩
    rintro rfl
    cases hk
  | cons ks kss => exact ⟨_, _, rfl, nofun⟩

theorem readsAs_name {pkg : Option String} {name : String}
    (hpkg : ∀ p ∈ pkg, (TokenKind.ident p).isPlain = true)
    (hname : (TokenKind.ident name).isPlain = true) (hargs : ∀ a ∈ args, a.1.ReadsAs a.2) :
    (TypeExpr.name pkg name (args.map Prod.fst)).ReadsAs
      (nameKinds name pkg ++ argKinds (args.map Prod.snd)) where
  spells indent := by
    obtain ⟨pss, hprint, hspells⟩ := exists_mapM_spells fun a ha => (hargs a ha).spells indent
    have hargs' : printTypes indent (args.map Prod.fst) = .ok pss := by
      rw [printTypes_eq_mapM, List.mapM_map]
      exact hprint
    refine ⟨_, ?_, spells_name hpkg hname hspells⟩
    have hname' : name.isEmpty = false := TokenKind.isEmpty_text_of_isPlain hname
    cases pkg <;> rw [printType, hname', hargs'] <;> rfl
  starts := by cases pkg <;> exact ⟨_, _, rfl, rfl⟩
  balanced := by
    refine .append ?_ ?_
    · cases pkg with
      | none => exact .single rfl
      | some p => exact (ParamEntry.Balanced.pair rfl rfl).cons rfl
    · rw [argKinds]
      split
      · exact .nil
      · exact .brackets (.join (balanced_of_mem hargs) rfl)
  named rest := by cases pkg <;> rfl
  entry := by
    cases pkg with
    | some p =>
      refine .inr ?_
      rintro _ _ ⟨⟩ k rest hk
      rfl
    | none =>
      cases args with
      | nil => exact .inl ⟨name, rfl, rfl⟩
      | cons a args =>
        refine .inr ?_
        rintro _ _ ⟨⟩ k rest hk
        exact shapeOn_argKinds (balanced_of_mem hargs) (List.cons_ne_nil _ _) hk rest
  arrow := by cases pkg <;> exact nofun
  embeds hembedded k rest hk := by
    cases pkg with
    | some p => exact ⟨_, _, _, rfl, rfl⟩
    | none =>
      cases args with
      | nil => rcases hk with rfl | ⟨raw, rfl⟩ <;> exact ⟨_, _, _, rfl, rfl⟩
      | cons a args => cases hembedded
  result := by cases pkg <;> exact nofun
  takes n hn k rest hk := by
    cases n with
    | zero => cases hn
    | succ n =>
      rw [List.append_assoc]
      rw [List.length_append] at hn
      cases pkg with
      | none =>
        have hlen : (argKinds (args.map Prod.snd)).length < n := by
          simp only [nameKinds, List.length_cons] at hn
          omega
        have hrest := takes_instance hargs hlen hk rest none name
        obtain ⟨l, more, hmore, hdot⟩ := exists_argKinds (args.map Prod.snd) hk rest
        rw [hmore] at hrest ⊢
        exact takes_peek (takes_advance (takes_accept_of_ne hdot hrest))
      | some p =>
        have hlen : (argKinds (args.map Prod.snd)).length < n := by
          simp only [nameKinds, List.length_cons] at hn
          omega
        refine takes_peek (takes_advance (takes_accept ?_))
        refine (takes_expectIdent .expectedTypeNameAfterDot).bind ?_
        rintro id rfl
        exact takes_instance hargs hlen hk rest (some p) id.name

end TypeExpr

end ServiceSplit
