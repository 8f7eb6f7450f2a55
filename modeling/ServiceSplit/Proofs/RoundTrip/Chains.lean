import Mathlib.Data.List.Induction
import ServiceSplit.Proofs.Parser.Source
import ServiceSplit.Proofs.RoundTrip.Operations

/-!
# Chains of binary operators

A chain is a sequence of names with binary operators between them. The parser of expressions reads a
chain as the one grouped tree that has these names and operators from left to right.

There is such a tree: the next operator and name of a chain are put in at the right edge of the tree
of the chain in front of them, as far down as the operators bind less tightly. There is no second
one, since the parser would read it from the same tokens.
-/

namespace ServiceSplit

open ServiceSplit.Parser

/-- Names with binary operators between them. -/
structure Chain where
  /-- The first name. -/
  first : String
  /-- The operators, each with the name behind it. -/
  links : List (BinaryOp × String)

namespace Chain

/-- The tokens of the operators and of the names behind them. -/
def linkTokens (links : List (BinaryOp × String)) : List TokenKind :=
  links.flatMap fun link => [.punct link.1.mark, .ident link.2]

/-- The tokens of a chain. -/
def tokens (chain : Chain) : List TokenKind :=
  .ident chain.first :: linkTokens chain.links

/-- A chain, an operator and a chain behind it. -/
def join (left : Chain) (op : BinaryOp) (right : Chain) : Chain :=
  ⟨left.first, left.links ++ (op, right.first) :: right.links⟩

theorem tokens_join (left right : Chain) (op : BinaryOp) :
    (left.join op right).tokens = left.tokens ++ .punct op.mark :: right.tokens := by
  simp [tokens, join, linkTokens]

theorem join_snoc (left right : Chain) (op op' : BinaryOp) (name : String) :
    (left.join op right).join op' ⟨name, []⟩ = left.join op (right.join op' ⟨name, []⟩) := by
  simp [join]

end Chain

namespace Expr

/-- The names and binary operators of a tree from left to right, if it has nothing else. -/
def chain? : Expr → Option Chain
  | ident id => some ⟨id.name, []⟩
  | binary op x y _ => do
    let left ← x.chain?
    let right ← y.chain?
    return left.join op right
  | _ => none

theorem chain?_binary_eq_some_iff {op : BinaryOp} {x y : Expr} {span : Span} {chain : Chain} :
    (binary op x y span).chain? = some chain ↔
      ∃ left right, x.chain? = some left ∧ y.chain? = some right ∧ left.join op right = chain := by
  simp [chain?, Option.bind_eq_some_iff]

/-- Induction over the trees of chains. -/
theorem chain_induction {P : Expr → Chain → Prop}
    (name : ∀ id : Ident, P (ident id) ⟨id.name, []⟩)
    (operator : ∀ op x y span left right, x.chain? = some left → P x left → y.chain? = some right →
      P y right → P (binary op x y span) (left.join op right)) :
    (e : Expr) → (chain : Chain) → e.chain? = some chain → P e chain
  | ident id, _, h => Option.some.inj h ▸ name id
  | binary op x y span, _, h => by
    obtain ⟨left, right, hx, hy, rfl⟩ := chain?_binary_eq_some_iff.mp h
    exact operator op x y span left right hx (chain_induction name operator x left hx) hy
      (chain_induction name operator y right hy)
  | lit .., _, h | composite .., _, h | funcLit .., _, h | paren .., _, h | selector .., _, h
  | index .., _, h | slice .., _, h | typeAssert .., _, h | call .., _, h | star .., _, h
  | unary .., _, h | keyValue .., _, h | type .., _, h => by cases h

variable {e : Expr} {chain : Chain}

theorem tokens_of_chain? (h : e.chain? = some chain) : e.tokens = chain.tokens := by
  refine chain_induction (P := fun e chain => e.tokens = chain.tokens) ?_ ?_ e chain h
  · exact fun id => rfl
  · intro op x y span left right _ hx _ hy
    rw [tokens, hx, hy, Chain.tokens_join]

theorem isOperation_of_chain? (h : e.chain? = some chain) :
    e.isOperation (fun _ => true) = true := by
  refine chain_induction (P := fun e _ => e.isOperation (fun _ => true) = true) ?_ ?_ e chain h
  · exact fun id => rfl
  · intro op x y span left right _ hx _ hy
    rw [isOperation, hx, hy]
    rfl

/-- A chain is read off a tree whatever its places are. -/
theorem chain?_unplaced : (e : Expr) → e.unplaced.chain? = e.chain?
  | binary op x y span => by
    rw [unplaced, chain?, chain?, chain?_unplaced x, chain?_unplaced y]
  | ident _ | lit .. | composite .. | funcLit .. | paren .. | selector .. | index .. | slice ..
  | typeAssert .. | call .. | star .. | unary .. | keyValue .. | type .. => rfl

/-! ### One link more -/

/-- The tree with an operator and a name behind its last name. -/
def attach (op : BinaryOp) (name : String) : Expr → Expr
  | binary op' x y span =>
    if op'.precedence < op.precedence then binary op' x (y.attach op name) span
    else binary op (binary op' x y span) (ident (.made name)) .synthetic
  | e => binary op e (ident (.made name)) .synthetic

theorem chain?_attach {op : BinaryOp} {name : String} (h : e.chain? = some chain) :
    (e.attach op name).chain? = some (chain.join op ⟨name, []⟩) := by
  refine chain_induction (P := fun e chain =>
    (e.attach op name).chain? = some (chain.join op ⟨name, []⟩)) ?_ ?_ e chain h
  · exact fun id => rfl
  · intro op' x y span left right hx _ hy ih
    rw [attach]
    split
    · exact chain?_binary_eq_some_iff.mpr ⟨left, _, hx, ih, (Chain.join_snoc ..).symm⟩
    · refine chain?_binary_eq_some_iff.mpr ⟨_, ⟨name, []⟩, ?_, rfl, rfl⟩
      exact chain?_binary_eq_some_iff.mpr ⟨left, right, hx, hy, rfl⟩

/-- At the root stands the operator that was there or the new one. -/
theorem precedence_of_attach {op : BinaryOp} {name : String} {p : Nat}
    (h : p ∈ (e.attach op name).precedence?) : p ∈ e.precedence? ∨ p = op.precedence := by
  cases e with
  | binary op' x y span =>
    rw [attach] at h
    split at h
    · exact .inl h
    · exact .inr (Option.some.inj h).symm
  | _ => exact .inr (Option.some.inj h).symm

theorem isGrouped_attach {op : BinaryOp} {name : String} (h : e.chain? = some chain)
    (hgrouped : e.IsGrouped) : (e.attach op name).IsGrouped := by
  have hname : (ident (.made name)).IsGrouped := (isGrouped_iff _).mpr trivial
  refine chain_induction (P := fun e _ => e.IsGrouped → (e.attach op name).IsGrouped) ?_ ?_
    e chain h
    hgrouped
  · exact fun id hid => (isGrouped_iff _).mpr ⟨⟨nofun, nofun⟩, hid, hname⟩
  · intro op' x y span left right _ _ _ ih hbinary
    obtain ⟨⟨hleft, hright⟩, hx, hy⟩ := (isGrouped_iff _).mp hbinary
    rw [attach]
    split
    · rename_i hlt
      refine (isGrouped_iff _).mpr ⟨⟨hleft, fun p hp => ?_⟩, hx, ih hy⟩
      rcases precedence_of_attach hp with hp | rfl
      · exact hright p hp
      · exact hlt
    · rename_i hle
      refine (isGrouped_iff _).mpr ⟨⟨?_, nofun⟩, hbinary, hname⟩
      rintro _ ⟨⟩
      exact Nat.le_of_not_lt hle

end Expr

namespace Chain

/-- Every chain has a grouped tree. -/
theorem exists_isGrouped (chain : Chain) : ∃ e : Expr, e.chain? = some chain ∧ e.IsGrouped := by
  obtain ⟨first, links⟩ := chain
  -- The last link is put in last.
  induction links using List.reverseRecOn with
  | nil => exact ⟨.ident (.made first), rfl, (Expr.isGrouped_iff _).mpr trivial⟩
  | append_singleton links link ih =>
    obtain ⟨e, hchain, hgrouped⟩ := ih
    exact ⟨e.attach link.1 link.2, Expr.chain?_attach hchain, Expr.isGrouped_attach hchain hgrouped⟩

variable {chain : Chain} {e : Expr} {n : Nat} {c : Cursor} {k : TokenKind} {rest : List TokenKind}

/-- The parser of expressions reads every grouped tree of the chain from its tokens. -/
theorem parses (hchain : e.chain? = some chain) (hgrouped : e.IsGrouped)
    (hn : chain.tokens.length < n)
    (hc : c.kinds = chain.tokens ++ k :: rest) (hk : k.extendsOperand c.bodyBrace = false)
    (hop : BinaryOp.ofToken? k = none) :
    ∃ x c', (Grammar.ofBound n).expr c = .ok x c' ∧ e.ReadAs c (k :: rest) x c' := by
  have hread := Expr.isRead_of_isGrouped (Expr.isOperation_of_chain? hchain) hgrouped
  rw [← Expr.tokens_of_chain? hchain] at hn hc
  exact hread.binary hn (fun p hp => e.precedence_pos hp) hc hk (by simp [hop])

/-- A chain has only one grouped tree, but for places. -/
theorem unplaced_eq {e' : Expr} (h : e.chain? = some chain) (hgrouped : e.IsGrouped)
    (h' : e'.chain? = some chain) (hgrouped' : e'.IsGrouped) : e.unplaced = e'.unplaced := by
  -- Both trees are what the parser makes of the tokens of the chain.
  let c : Cursor := { rest := (chain.tokens ++ [TokenKind.eof]).map fun kind => ⟨kind, 0, 0⟩ }
  have hc : c.kinds = chain.tokens ++ [.eof] := by simp [c, Cursor.kinds, Function.comp_def]
  obtain ⟨x, c₁, hx, hread⟩ := parses h hgrouped (Nat.lt_succ_self _) hc rfl rfl
  obtain ⟨x', c₂, hx', hread'⟩ := parses h' hgrouped' (Nat.lt_succ_self _) hc rfl rfl
  cases hx.symm.trans hx'
  exact hread.unplaced.symm.trans hread'.unplaced

end Chain

/-- The parser of expressions reads names with binary operators between them, in front of a token
that does not go on with an expression, up to that token, and makes of them the only grouped tree
that has these names and operators from left to right. All expressions in a tree that it makes of
any tokens have operands that bind tightly enough to stand without parentheses. -/
theorem Grammar.chain_parses_grouped :
    (∀ (chain : Chain) (n : Nat) (c : Cursor) (k : TokenKind) (rest : List TokenKind),
      chain.tokens.length < n → c.kinds = chain.tokens ++ k :: rest →
      k.extendsOperand c.bodyBrace = false → BinaryOp.ofToken? k = .none →
      ∃ e c', (Grammar.ofBound n).expr c = .ok e c' ∧ c'.rest = c.rest.drop chain.tokens.length ∧
        e.chain? = some chain ∧ e.IsGrouped ∧
        ∀ e' : Expr, e'.chain? = some chain → e'.IsGrouped → e'.unplaced = e.unplaced) ∧
    ∀ (n : Nat) (c : Cursor) (e : Expr) (c' : Cursor), (Grammar.ofBound n).expr c = .ok e c' →
      ∀ role y, Event.expr role y ∈ e.events {} .use → y.tightOperands = true := by
  constructor
  · intro chain n c k rest hn hc hk hop
    obtain ⟨t, ht, hgrouped⟩ := chain.exists_isGrouped
    obtain ⟨e, c', he, hread⟩ := Chain.parses ht hgrouped hn hc hk hop
    have hchain : e.chain? = some chain := by
      rw [← Expr.chain?_unplaced, hread.unplaced, Expr.chain?_unplaced, ht]
    have hgrouped' : e.IsGrouped := Grammar.isGrouped_expr he
    refine ⟨e, c', he, ?_, hchain, hgrouped', fun e' h h' =>
      Chain.unplaced_eq h h' hchain hgrouped'⟩
    exact hread.leads.rest_eq (by rw [hc, hread.kinds])
  · intro n c e c' he
    exact Grammar.isGrouped_expr he

/-- The tree of `a + b * c - d`: the product is the right operand of the sum, and the sum is the
left operand of the difference. -/
theorem Grammar.chain_parses_sum_of_product :
    ∃ e c', (Grammar.ofBound 9).expr
        { rest := [.ident "a", .punct .plus, .ident "b", .punct .star, .ident "c", .punct .minus,
            .ident "d", .punct .comma].map fun kind => ⟨kind, 0, 0⟩ } = .ok e c' ∧
      c'.rest = [⟨.punct .comma, 0, 0⟩] ∧
      e.unplaced = .binary .sub (.binary .add (.ident (.made "a"))
        (.binary .mul (.ident (.made "b")) (.ident (.made "c")) .synthetic) .synthetic)
        (.ident (.made "d")) .synthetic := by
  obtain ⟨e, c', he, hrest, -, -, hunique⟩ := Grammar.chain_parses_grouped.1
    ⟨"a", [(.add, "b"), (.mul, "c"), (.sub, "d")]⟩ 9
      { rest := [.ident "a", .punct .plus, .ident "b",
      .punct .star, .ident "c", .punct .minus, .ident "d", .punct .comma].map fun kind =>
        ⟨kind, 0, 0⟩ }
    (.punct .comma) [] (by decide) rfl rfl rfl
  refine ⟨e, c', he, hrest, (hunique (.binary .sub (.binary .add (.ident (.made "a"))
    (.binary .mul (.ident (.made "b")) (.ident (.made "c")) .synthetic) .synthetic)
    (.ident (.made "d")) .synthetic) rfl ?_).symm⟩
  simp [Expr.isGrouped_iff, Expr.precedence?, BinaryOp.precedence]

end ServiceSplit
