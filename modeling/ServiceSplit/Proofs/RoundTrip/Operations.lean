import ServiceSplit.Proofs.RoundTrip.Types
import ServiceSplit.Proofs.Tree.Grouping

/-!
# Reading operations

An operation is built from names by operators, selectors, indices, calls and parentheses. If its
tree is grouped, the tokens of the tree in their order are read back as the tree: the parser climbs
from the first operand over operators that bind at least as tightly as it is told, and stops where
the tree ends.

The parser extends what it has read in a loop, so the tokens of a part are read by some rounds of
the loop that goes on behind them. The induction over the tree therefore says in which round the
loop is behind a part, and not what it returns.
-/

namespace ServiceSplit

open ServiceSplit.Parser

/-! ### Operations and their tokens -/

mutual

/-- Whether an expression is built from names that are `valid` by parentheses, selectors, indices,
calls, `*`, `!`, `<-` and binary operators. -/
def Expr.isOperation (valid : String → Bool) : Expr → Bool
  | .ident id => valid id.name
  | .paren x _ | .star x _ | .unary .not x _ | .unary .recv x _ => x.isOperation valid
  | .selector x sel _ => x.isOperation valid && valid sel.name
  | .index x (i :: is) _ =>
      x.isOperation valid && i.isOperation valid && Expr.areOperations valid is
  | .call fn args false _ => fn.isOperation valid && Expr.areOperations valid args
  | .binary _ x y _ => x.isOperation valid && y.isOperation valid
  | _ => false

/-- Whether several expressions are operations. -/
def Expr.areOperations (valid : String → Bool) : List Expr → Bool
  | [] => true
  | x :: xs => x.isOperation valid && Expr.areOperations valid xs

end

mutual

/-- The tokens of an operation. -/
def Expr.tokens : Expr → List TokenKind
  | .ident id => [.ident id.name]
  | .paren x _ => .punct .lparen :: (x.tokens ++ [.punct .rparen])
  | .selector x sel _ => x.tokens ++ [.punct .dot, .ident sel.name]
  | .index x indices _ => x.tokens ++
    .punct .lbracket :: (TokenKind.join (.punct .comma) (Expr.tokenLists indices) ++
    [.punct .rbracket])
  | .call fn args _ _ => fn.tokens ++
    .punct .lparen :: (TokenKind.join (.punct .comma) (Expr.tokenLists args) ++ [.punct .rparen])
  | .star x _ => .punct .star :: x.tokens
  | .unary op x _ => .punct op.mark :: x.tokens
  | .binary op x y _ => x.tokens ++ .punct op.mark :: y.tokens
  | _ => []

/-- The tokens of several operations. -/
def Expr.tokenLists : List Expr → List (List TokenKind)
  | [] => []
  | x :: xs => x.tokens :: Expr.tokenLists xs

end

mutual

/-- An operation without places. -/
def Expr.unplaced : Expr → Expr
  | .ident id => .ident (.made id.name)
  | .paren x _ => .paren x.unplaced .synthetic
  | .selector x sel _ => .selector x.unplaced (.made sel.name) .synthetic
  | .index x indices _ => .index x.unplaced (Expr.allUnplaced indices) .synthetic
  | .call fn args spread _ => .call fn.unplaced (Expr.allUnplaced args) spread .synthetic
  | .star x _ => .star x.unplaced .synthetic
  | .unary op x _ => .unary op x.unplaced .synthetic
  | .binary op x y _ => .binary op x.unplaced y.unplaced .synthetic
  | e => e

/-- Several operations without places. -/
def Expr.allUnplaced : List Expr → List Expr
  | [] => []
  | x :: xs => x.unplaced :: Expr.allUnplaced xs

end

namespace Expr

variable {valid : String → Bool}

theorem areOperations_iff {xs : List Expr} :
    areOperations valid xs = true ↔ ∀ x ∈ xs, x.isOperation valid = true := by
  induction xs with
  | nil => simp [areOperations]
  | cons x xs ih => simp [areOperations, ih]

theorem tokenLists_eq (xs : List Expr) : tokenLists xs = xs.map tokens := by
  induction xs with
  | nil => rfl
  | cons x xs ih => rw [tokenLists, ih, List.map_cons]

theorem allUnplaced_eq (xs : List Expr) : allUnplaced xs = xs.map unplaced := by
  induction xs with
  | nil => rfl
  | cons x xs ih => rw [allUnplaced, ih, List.map_cons]

/-- The steps of an induction over operations. -/
structure OperationSteps (valid : String → Bool) (P : Expr → Prop) : Prop where
  ident : ∀ id, valid id.name = true → P (.ident id)
  paren : ∀ x span, x.isOperation valid = true → P x → P (.paren x span)
  selector : ∀ x sel span, x.isOperation valid = true → P x → valid sel.name = true →
    P (.selector x sel span)
  index : ∀ x i is span, x.isOperation valid = true → P x →
    (∀ j ∈ i :: is, j.isOperation valid = true ∧ P j) → P (.index x (i :: is) span)
  call : ∀ fn args span, fn.isOperation valid = true → P fn →
    (∀ a ∈ args, a.isOperation valid = true ∧ P a) → P (.call fn args false span)
  star : ∀ x span, x.isOperation valid = true → P x → P (.star x span)
  unary : ∀ op x span, op = .not ∨ op = .recv → x.isOperation valid = true → P x →
    P (.unary op x span)
  binary : ∀ op x y span, x.isOperation valid = true → P x → y.isOperation valid = true → P y →
    P (.binary op x y span)

namespace OperationSteps

variable {P : Expr → Prop}

mutual

/-- Induction over operations. -/
theorem all (S : OperationSteps valid P) : (e : Expr) → e.isOperation valid = true → P e
  | .ident id, h => S.ident id h
  | .paren x span, h => S.paren x span h (all S x h)
  | .selector x sel span, h => by
    rw [isOperation, Bool.and_eq_true] at h
    exact S.selector x sel span h.1 (all S x h.1) h.2
  | .index x (i :: is) span, h => by
    rw [isOperation, Bool.and_eq_true, Bool.and_eq_true] at h
    refine S.index x i is span h.1.1 (all S x h.1.1) (List.forall_mem_cons.mpr ⟨⟨h.1.2, ?_⟩, ?_⟩)
    · exact all S i h.1.2
    · exact lists S is h.2
  | .call fn args false span, h => by
    rw [isOperation, Bool.and_eq_true] at h
    exact S.call fn args span h.1 (all S fn h.1) (lists S args h.2)
  | .star x span, h => S.star x span h (all S x h)
  | .unary .not x span, h => S.unary .not x span (.inl rfl) h (all S x h)
  | .unary .recv x span, h => S.unary .recv x span (.inr rfl) h (all S x h)
  | .binary op x y span, h => by
    rw [isOperation, Bool.and_eq_true] at h
    exact S.binary op x y span h.1 (all S x h.1) h.2 (all S y h.2)
  | .index _ [] _, h | .call _ _ true _, h | .unary .plus _ _, h | .unary .neg _ _, h
  | .unary .xor _ _, h | .unary .addr _ _, h | .lit .., h | .composite .., h | .funcLit .., h
  | .slice .., h | .typeAssert .., h | .keyValue .., h | .type .., h => by cases h

theorem lists (S : OperationSteps valid P) : (es : List Expr) → areOperations valid es = true →
    ∀ e ∈ es, e.isOperation valid = true ∧ P e
  | [], _ => nofun
  | e :: es, h => by
    rw [areOperations, Bool.and_eq_true] at h
    exact List.forall_mem_cons.mpr ⟨⟨h.1, all S e h.1⟩, lists S es h.2⟩

end

end OperationSteps

end Expr

/-! ### Single rounds -/

namespace Parser

variable {α β : Type} {p : Parser α} {f : α → Parser β} {step : α → Parser (Option α)} {a b : α}
  {c c' : Cursor} {m : Nat}

theorem bind_eq_of_ok (h : p c = .ok a c') : (p >>= f) c = f a c' := by
  show EStateM.bind p f c = _
  rw [EStateM.bind, h]

theorem iterate_eq_of_some (h : step a c = .ok (some b) c') :
    iterate step (m + 1) a c = iterate step m b c' :=
  bind_eq_of_ok h

theorem iterate_eq_of_none (hm : 0 < m) (h : step a c = .ok none c') :
    iterate step m a c = .ok a c' := by
  cases m with
  | zero => cases hm
  | succ m => exact bind_eq_of_ok h

end Parser

namespace TokenKind

/-- Whether a token behind an operand belongs to it; `bodyBrace` tells that a brace opens a body. -/
def extendsOperand (bodyBrace : Bool) : TokenKind → Bool
  | punct .dot | punct .lbracket | punct .lparen => true
  | punct .lbrace => !bodyBrace
  | _ => false

/-- Whether an operand can start with the token. -/
def startsOperand : TokenKind → Bool
  | ident _ | punct .lparen => true
  | _ => false

/-- Whether an operation can start with the token. -/
def startsOperation (k : TokenKind) : Bool :=
  k.startsOperand || k == .punct .star || k == .punct .bang || k == .punct .arrow

end TokenKind

@[simp] theorem BinaryOp.ofToken?_mark (op : BinaryOp) :
    BinaryOp.ofToken? (.punct op.mark) = some op := by
  cases op <;> rfl

theorem BinaryOp.extendsOperand_mark (op : BinaryOp) (flag : Bool) :
    (TokenKind.punct op.mark).extendsOperand flag = false := by
  cases op <;> rfl

/-- A type can be the type of a literal wherever it stands; other expressions only where a brace
opens no body. -/
theorem Expr.exists_type_of_opensComposite {x : Expr} (h : x.opensComposite true = true) :
    ∃ ty span, x = .type ty span := by
  unfold opensComposite at h
  split at h <;> first | exact ⟨_, _, rfl⟩ | cases h

theorem Grammar.extend_eq_none {G : Grammar} {x : Expr} {c : Cursor}
    (hx : x.opensComposite true = false) (hk : c.kind.extendsOperand c.bodyBrace = false) :
    G.extend x c = .ok .none c := by
  unfold Grammar.extend
  rw [Parser.bind_eq_of_ok (rfl : peek c = .ok c.kind c)]
  generalize hkind : c.kind = k at hk
  unfold TokenKind.extendsOperand at hk
  split
  · cases hk
  · cases hk
  · cases hk
  · rw [Parser.bind_eq_of_ok (rfl : (get : Parser Cursor) c = .ok c c)]
    have hflag : c.bodyBrace = true := by simpa using hk
    rw [hflag, hx, if_neg Bool.false_ne_true]
    rfl
  · rfl

theorem Grammar.binaryStep_eq_none {G : Grammar} {least : Nat} {x : Expr} {c : Cursor}
    (h : ∀ op ∈ BinaryOp.ofToken? c.kind, op.precedence < least) :
    G.binaryStep least x c = .ok .none c := by
  unfold Grammar.binaryStep
  rw [Parser.bind_eq_of_ok (rfl : peek c = .ok c.kind c)]
  cases hop : BinaryOp.ofToken? c.kind with
  | none => rfl
  | some op =>
    show (if op.precedence < least then pure .none else _ : Parser (Option Expr)) c = _
    rw [if_pos (h op hop)]
    rfl

/-- A token that starts an operand is no unary operator. -/
theorem Grammar.unaryExpr_eq_of_startsOperand {G : Grammar} {c : Cursor}
    (h : c.kind.startsOperand = true) : G.unaryExpr c = (G.operand >>= G.extended) c := by
  unfold Grammar.unaryExpr
  rw [Parser.bind_eq_of_ok (rfl : position c = .ok c.start c),
    Parser.bind_eq_of_ok (rfl : peek c = .ok c.kind c),
    Parser.bind_eq_of_ok (rfl : peekAt 1 c = .ok (c.kindAt 1) c)]
  generalize c.kind = k at h ⊢
  unfold TokenKind.startsOperand at h
  split at h
  · rfl
  · rfl
  · cases h

theorem Grammar.unaryExpr_eq_star {G : Grammar} {x : Expr} {c c' : Cursor}
    (h : c.kind = .punct .star) (hx : G.unary c.advance = .ok x c') :
    ∃ span, G.unaryExpr c = .ok (.star x span) c' := by
  refine ⟨c'.spanFrom c.start, ?_⟩
  unfold Grammar.unaryExpr
  rw [Parser.bind_eq_of_ok (rfl : position c = .ok c.start c),
    Parser.bind_eq_of_ok (rfl : peek c = .ok c.kind c),
    Parser.bind_eq_of_ok (rfl : peekAt 1 c = .ok (c.kindAt 1) c), h]
  show (Parser.advance >>= fun _ => G.unary >>= fun x => _) c = _
  rw [Parser.bind_eq_of_ok (rfl : Parser.advance c = .ok () c.advance), Parser.bind_eq_of_ok hx]
  rfl

theorem Grammar.unaryExpr_eq_unary {G : Grammar} {op : UnaryOp} {x : Expr} {c c' : Cursor}
    (h : c.kind = .punct op.mark) (hchan : c.kindAt 1 ≠ .keyword .kwChan)
    (hx : G.unary c.advance = .ok x c') : ∃ span, G.unaryExpr c = .ok (.unary op x span) c' := by
  refine ⟨c'.spanFrom c.start, ?_⟩
  unfold Grammar.unaryExpr
  rw [Parser.bind_eq_of_ok (rfl : position c = .ok c.start c),
    Parser.bind_eq_of_ok (rfl : peek c = .ok c.kind c),
    Parser.bind_eq_of_ok (rfl : peekAt 1 c = .ok (c.kindAt 1) c), beq_eq_false_iff_ne.mpr hchan,
    Bool.and_false, if_neg Bool.false_ne_true, h]
  have hstep : (Parser.advance >>= fun _ => G.unary >>= fun x =>
      Parser.spanFrom c.start >>= fun span => pure (Expr.unary op x span) : Parser Expr) c =
      .ok (.unary op x (c'.spanFrom c.start)) c' := by
    rw [Parser.bind_eq_of_ok (rfl : Parser.advance c = .ok () c.advance), Parser.bind_eq_of_ok hx]
    rfl
  cases op <;> exact hstep

namespace Expr

/-! ### Reading back -/

/-- From `c` to `c'` the parser has read the tokens of the operation `t`, and it has made `x` of
them; tokens of the kinds `rest` are still to come. -/
structure ReadAs (t : Expr) (c : Cursor) (rest : List TokenKind) (x : Expr) (c' : Cursor) :
    Prop where
  leads : c.Leads c'
  kinds : c'.kinds = rest
  unplaced : x.unplaced = t.unplaced

/-- Behind the tokens of the operand `t`, the parser is in some round of extending it. -/
def Opens (t : Expr) : Prop :=
  ∀ n c rest, t.tokens.length ≤ n → c.kinds = t.tokens ++ rest → ∃ x c' m, n < m + t.tokens.length ∧
    ((Grammar.ofBound n).operand >>= (Grammar.ofBound n).extended) c =
      iterate (Grammar.ofBound n).extend m x c' ∧ t.ReadAs c rest x c'

/-- The parser of operands with unary operators reads `t`. -/
def ReadsUnary (t : Expr) : Prop :=
  ∀ n c k rest, t.tokens.length ≤ n → c.kinds = t.tokens ++ k :: rest →
    k.extendsOperand c.bodyBrace = false →
    ∃ x c', (Grammar.ofBound n).unaryExpr c = .ok x c' ∧ t.ReadAs c (k :: rest) x c'

/-- Behind the tokens of `t`, the parser is in some round of climbing over operators that bind at
least as tightly as `least`, if the operators in `t` do and the next one does not belong to `t`. -/
def Climbs (t : Expr) : Prop :=
  ∀ n least c k rest, t.tokens.length ≤ n → (∀ p ∈ t.precedence?, least ≤ p) →
    c.kinds = t.tokens ++ k :: rest → k.extendsOperand c.bodyBrace = false →
    (∀ op ∈ BinaryOp.ofToken? k, ∀ p ∈ t.precedence?, op.precedence ≤ p) →
    ∃ x c' m, n < m + t.tokens.length ∧ (Grammar.ofBound n).binaryExpr least c =
      iterate ((Grammar.ofBound n).binaryStep least) m x c' ∧ t.ReadAs c (k :: rest) x c'

/-- The parsers of expressions read `t` from its tokens. -/
structure IsRead (t : Expr) : Prop where
  starts : ∃ k more, t.tokens = k :: more ∧ k.startsOperation = true ∧
    (t.isOperator = false → k.startsOperand = true)
  opens : t.isOperator = false → t.Opens
  unary : t.isBinary = false → t.ReadsUnary
  climbs : t.Climbs

variable {t u x : Expr} {n : Nat} {ks rest : List TokenKind}

theorem IsRead.length_pos (h : t.IsRead) : 0 < t.tokens.length := by
  obtain ⟨k, more, htokens, -⟩ := h.starts
  rw [htokens]
  exact Nat.succ_pos _

/-- The parser of expressions stops behind `t` if the next token does not go on with it. -/
theorem IsRead.binary (h : t.IsRead) {least : Nat} {c : Cursor} {k : TokenKind}
    (hn : t.tokens.length < n) (hleast : ∀ p ∈ t.precedence?, least ≤ p)
    (hc : c.kinds = t.tokens ++ k :: rest) (hk : k.extendsOperand c.bodyBrace = false)
    (hop : ∀ op ∈ BinaryOp.ofToken? k, op.precedence < least) :
    ∃ x c', (Grammar.ofBound n).binary least c = .ok x c' ∧ t.ReadAs c (k :: rest) x c' := by
  cases n with
  | zero => cases hn
  | succ n =>
    obtain ⟨x, c', m, hm, heq, hread⟩ :=
      h.climbs n least c k rest (Nat.le_of_lt_succ hn) hleast hc hk
      fun op hmem p hp => Nat.le_of_lt (Nat.lt_of_lt_of_le (hop op hmem) (hleast p hp))
    have hkind : c'.kind = k := Cursor.kind_of_kinds hread.kinds
    have hpos : 0 < m := by omega
    refine ⟨x, c', ?_, hread⟩
    exact heq.trans (iterate_eq_of_none hpos (Grammar.binaryStep_eq_none (hkind ▸ hop)))

theorem precedence_pos (t : Expr) {p : Nat} (h : p ∈ t.precedence?) : 1 ≤ p := by
  cases t with
  | binary op x y span =>
    cases h
    cases op <;> decide
  | _ => cases h

/-- An operation as an item of a list. -/
theorem IsRead.takesItem (h : t.IsRead) (hn : t.tokens.length < n) {close : Punct}
    (hclose : close = .rparen ∨ close = .rbracket) :
    TakesItem (Grammar.ofBound n).expr (fun k => k = .punct .comma ∨ k = .punct close) t.tokens
      fun y => y.unplaced = t.unplaced := by
  intro k rest hk c hc
  have hstops : (∀ flag, k.extendsOperand flag = false) ∧ BinaryOp.ofToken? k = none := by
    rcases hclose with rfl | rfl <;> rcases hk with rfl | rfl <;> exact ⟨fun _ => rfl, rfl⟩
  obtain ⟨x, c', heq, hread⟩ := h.binary hn (fun p hp => t.precedence_pos hp) hc (hstops.1 _)
    (by simp [hstops.2])
  exact ⟨x, c', heq, hread.leads, hread.kinds, hread.unplaced⟩

/-! ### Operators in front of an operand -/

theorem ReadsUnary.climbs (h : t.ReadsUnary) (hpos : 0 < t.tokens.length) : t.Climbs := by
  intro n least c k rest hn _ hc hk _
  obtain ⟨x, c', hx, hread⟩ := h n c k rest hn hc hk
  refine ⟨x, c', n, by omega, ?_, hread⟩
  show ((Grammar.ofBound n).unaryExpr >>= iterate ((Grammar.ofBound n).binaryStep least)
    (Grammar.ofBound n).bound) c = _
  rw [bind_eq_of_ok hx, Grammar.bound_ofBound]

theorem IsRead.of_readsUnary (hoperator : t.isOperator = true)
    (hstarts : ∃ k more, t.tokens = k :: more ∧ k.startsOperation = true) (h : t.ReadsUnary) :
    t.IsRead := by
  obtain ⟨k, more, htokens, hk⟩ := hstarts
  have hpos : 0 < t.tokens.length := htokens ▸ Nat.succ_pos _
  refine ⟨⟨k, more, htokens, hk, ?_⟩, ?_, fun _ => h, h.climbs hpos⟩ <;>
    exact fun hnot => nomatch hoperator.symm.trans hnot

/-- The operand behind `*`, `!` or `<-` is read from the cursor behind the mark. -/
theorem ReadsUnary.behind (h : t.ReadsUnary) {c : Cursor} {mark k : TokenKind}
    (hn : t.tokens.length < n) (hc : c.kinds = mark :: (t.tokens ++ k :: rest))
    (hk : k.extendsOperand c.bodyBrace = false) :
    ∃ x c', (Grammar.ofBound n).unary c.advance = .ok x c' ∧ t.ReadAs c (k :: rest) x c' := by
  cases n with
  | zero => cases hn
  | succ n =>
    have hflag := c.leads_advance.bodyBrace
    obtain ⟨x, c', hx, hread⟩ := h n c.advance k rest (Nat.le_of_lt_succ hn)
      (Cursor.kinds_advance hc)
      (hflag ▸ hk)
    exact ⟨x, c', hx, c.leads_advance.trans hread.leads, hread.kinds, hread.unplaced⟩

theorem IsRead.star (h : t.IsRead) (hbinary : t.isBinary = false) (span : Span) :
    (Expr.star t span).IsRead := by
  refine IsRead.of_readsUnary rfl ⟨_, _, rfl, rfl⟩ fun n c k rest hn hc hk => ?_
  obtain ⟨x, c', hx, hread⟩ := (h.unary hbinary).behind hn hc hk
  obtain ⟨span', heq⟩ := Grammar.unaryExpr_eq_star (Cursor.kind_of_kinds hc) hx
  refine ⟨_, c', heq, hread.leads, hread.kinds, ?_⟩
  rw [Expr.unplaced, Expr.unplaced, hread.unplaced]

theorem IsRead.unaryOp (h : t.IsRead) (hbinary : t.isBinary = false) {op : UnaryOp}
    (hop : op = .not ∨ op = .recv) (span : Span) : (Expr.unary op t span).IsRead := by
  have hstarts : (TokenKind.punct op.mark).startsOperation = true := by
    rcases hop with rfl | rfl <;> rfl
  refine IsRead.of_readsUnary rfl ⟨_, _, rfl, hstarts⟩ fun n c k rest hn hc hk => ?_
  obtain ⟨x, c', hx, hread⟩ := (h.unary hbinary).behind hn hc hk
  -- What follows the arrow starts an operation, so it is not the type of a channel.
  have hchan : c.kindAt 1 ≠ .keyword .kwChan := by
    obtain ⟨l, more, htokens, hl, -⟩ := h.starts
    rw [Expr.tokens, htokens] at hc
    rw [Cursor.kindAt_one_of_kinds hc]
    rintro rfl
    cases hl
  obtain ⟨span', heq⟩ := Grammar.unaryExpr_eq_unary (Cursor.kind_of_kinds hc) hchan hx
  refine ⟨_, c', heq, hread.leads, hread.kinds, ?_⟩
  rw [Expr.unplaced, Expr.unplaced, hread.unplaced]

/-! ### Operands -/

theorem IsRead.of_opens (htype : ∀ ty span, t.unplaced ≠ .type ty span)
    (hstarts : ∃ k more, t.tokens = k :: more ∧ k.startsOperand = true) (h : t.Opens) :
    t.IsRead := by
  obtain ⟨k, more, htokens, hk⟩ := hstarts
  have hunary : t.ReadsUnary := by
    intro n c l rest hn hc hl
    obtain ⟨x, c', m, hm, heq, hread⟩ := h n c (l :: rest) hn hc
    have hx : x.opensComposite true = false := by
      by_contra hnot
      obtain ⟨ty, span, rfl⟩ := exists_type_of_opensComposite (Bool.not_eq_false _ ▸ hnot)
      exact htype ty span hread.unplaced.symm
    have hkind : c'.kind = l := Cursor.kind_of_kinds hread.kinds
    have hpos : 0 < m := by omega
    have hfirst : c.kind = k := by
      rw [htokens] at hc
      exact Cursor.kind_of_kinds hc
    refine ⟨x, c', ?_, hread⟩
    rw [Grammar.unaryExpr_eq_of_startsOperand (hfirst ▸ hk), heq]
    refine iterate_eq_of_none hpos (Grammar.extend_eq_none hx ?_)
    rw [hkind, hread.leads.bodyBrace, hl]
  have hpos : 0 < t.tokens.length := htokens ▸ Nat.succ_pos _
  refine ⟨⟨k, more, htokens, ?_, fun _ => hk⟩, fun _ => h, fun _ => hunary,
    hunary.climbs hpos⟩
  rw [TokenKind.startsOperation, hk]
  rfl

/-- A single operand is behind its tokens in the first round. -/
theorem opens_of_operand (hpos : 0 < t.tokens.length)
    (h : ∀ n rest, t.tokens.length ≤ n → Takes (Grammar.ofBound n).operand (t.tokens ++ rest) rest
      fun x => x.unplaced = t.unplaced) : t.Opens := by
  intro n c rest hn hc
  obtain ⟨x, c', hx, hleads, hkinds, heq⟩ := h n rest hn c hc
  refine ⟨x, c', n, by omega, ?_, hleads, hkinds, heq⟩
  rw [bind_eq_of_ok hx, Grammar.extended, Grammar.bound_ofBound]

/-- An operand that is extended once more takes one round more. -/
theorem Opens.extend (h : t.Opens) (htokens : u.tokens = t.tokens ++ ks)
    (hpos : 0 < t.tokens.length)
    (hks : 0 < ks.length)
    (hstep : ∀ n rest x, ks.length < n → x.unplaced = t.unplaced →
      Takes ((Grammar.ofBound n).extend x) (ks ++ rest) rest fun o =>
        ∃ y, o = some y ∧ y.unplaced = u.unplaced) : u.Opens := by
  intro n c rest hn hc
  rw [htokens, List.length_append] at hn
  rw [htokens, List.append_assoc] at hc
  obtain ⟨x, c', m, hm, heq, hread⟩ := h n c (ks ++ rest) (by omega) hc
  obtain ⟨m, rfl⟩ : ∃ m', m = m' + 1 := ⟨m - 1, by omega⟩
  obtain ⟨_, c'', hy, hleads, hkinds, y, rfl, hunplaced⟩ :=
    hstep n rest x (by omega) hread.unplaced c' hread.kinds
  refine ⟨y, c'', m, ?_, heq.trans (iterate_eq_of_some hy), hread.leads.trans hleads, hkinds,
    hunplaced⟩
  rw [htokens, List.length_append]
  omega

theorem isRead_ident (id : Ident) : (Expr.ident id).IsRead := by
  refine .of_opens nofun ⟨_, _, rfl, rfl⟩ (opens_of_operand (Nat.succ_pos _) fun n rest _ => ?_)
  exact takes_position fun _ => takes_peek (takes_advance (takes_prevSpan fun _ => .pure rfl))

theorem IsRead.paren (h : t.IsRead) (span : Span) : (Expr.paren t span).IsRead := by
  refine .of_opens nofun ⟨_, _, rfl, rfl⟩ (opens_of_operand (Nat.succ_pos _) fun n rest hn => ?_)
  have hlen : t.tokens.length < n := by
    rw [Expr.tokens, List.length_cons, List.length_append] at hn
    omega
  rw [Expr.tokens, List.cons_append, List.append_assoc, List.singleton_append]
  refine takes_position fun _ => takes_peek (takes_advance ?_)
  have hinner := h.takesItem hlen (.inl rfl) _ rest (.inr rfl)
  refine (hinner.withBodyBrace false).bind fun x hx =>
    takes_expect (takes_spanFrom fun _ => .pure ?_)
  rw [Expr.unplaced, Expr.unplaced, hx]

theorem isRead_of_extend (h : t.IsRead) (ht : t.isOperator = false)
    (htype : ∀ ty span, u.unplaced ≠ .type ty span) (htokens : u.tokens = t.tokens ++ ks)
    (hks : 0 < ks.length)
    (hstep : ∀ n rest x, ks.length < n → x.unplaced = t.unplaced →
      Takes ((Grammar.ofBound n).extend x) (ks ++ rest) rest fun o =>
        ∃ y, o = some y ∧ y.unplaced = u.unplaced) : u.IsRead := by
  obtain ⟨k, more, hk, -, hstart⟩ := h.starts
  refine .of_opens htype ⟨k, more ++ ks, ?_, hstart ht⟩ ?_
  · rw [htokens, hk, List.cons_append]
  · exact (h.opens ht).extend htokens h.length_pos hks hstep

theorem IsRead.selector (h : t.IsRead) (ht : t.isOperator = false) (sel : Ident) (span : Span) :
    (Expr.selector t sel span).IsRead := by
  refine isRead_of_extend h ht nofun rfl (Nat.succ_pos _) fun n rest x _ hx => ?_
  have hselection : Takes ((Grammar.ofBound n).selection x) (.ident sel.name :: rest) rest fun y =>
      y.unplaced = (Expr.selector t sel span).unplaced := by
    refine takes_accept_of_ne nofun ((takes_expectIdent _).bind fun id hid => .pure ?_)
    rw [Expr.unplaced, Expr.unplaced, hx, hid]
  exact takes_peek (takes_advance (hselection.bind fun y hy => .pure ⟨y, rfl, hy⟩))

/-! ### Indices and arguments -/

theorem takes_moreIndices {indices : List Expr} (hread : ∀ i ∈ indices, i.IsRead)
    (hn : ∀ i ∈ indices, i.tokens.length < n) {m : Nat} (hm : indices.length < m)
    (rest : List TokenKind) :
    Takes ((Grammar.ofBound n).moreIndices m)
      (indices.flatMap (fun i => .punct .comma :: i.tokens) ++ .punct .rbracket :: rest)
      (.punct .rbracket :: rest) fun ys => ys.map unplaced = indices.map unplaced := by
  induction indices generalizing m with
  | nil =>
    cases m with
    | zero => cases hm
    | succ m => exact takes_accept_of_ne nofun (.pure rfl)
  | cons i indices ih =>
    cases m with
    | zero => cases hm
    | succ m =>
      obtain ⟨hi, hindices⟩ := List.forall_mem_cons.mp hread
      obtain ⟨hni, hnindices⟩ := List.forall_mem_cons.mp hn
      have hrest := ih hindices hnindices (Nat.lt_of_succ_lt_succ hm)
      obtain ⟨k, more, htokens, hk, -⟩ := hi.starts
      have hitem := hi.takesItem hni (.inr rfl)
      rw [List.flatMap_cons, List.append_assoc, List.cons_append]
      refine takes_accept ?_
      obtain ⟨l, tail, htail, hl⟩ :=
        TokenKind.exists_cons_following (.punct .comma) (.punct .rbracket) tokens indices rest
      rw [htail] at hrest ⊢
      have hfirst := hitem l tail hl
      rw [htokens] at hfirst ⊢
      refine takes_check ?_
      have hne : k ≠ .punct .rbracket := by
        rintro rfl
        cases hk
      rw [beq_eq_false_iff_ne.mpr hne, if_neg Bool.false_ne_true]
      refine hfirst.bind fun y hy => hrest.bind fun ys hys => .pure ?_
      rw [List.map_cons, List.map_cons, hy, hys]

private theorem lengths_of_join {xs : List Expr} (hread : ∀ x ∈ xs, x.IsRead)
    {rest : List TokenKind}
    (hn : (TokenKind.punct .lparen :: (TokenKind.join (.punct .comma) (tokenLists xs) ++
    rest)).length < n) :
    (∀ x ∈ xs, x.tokens.length < n) ∧ xs.length < n := by
  rw [tokenLists_eq, List.length_cons, List.length_append] at hn
  constructor
  · intro x hx
    have hle := TokenKind.length_le_join (.punct .comma) (List.mem_map_of_mem (f := tokens) hx)
    omega
  · have hle := TokenKind.length_le_length_join (.punct .comma)
      (List.forall_mem_map.mpr fun x hx => List.length_pos_iff.mp (hread x hx).length_pos)
    rw [List.length_map] at hle
    omega

theorem IsRead.index (h : t.IsRead) (ht : t.isOperator = false) {i : Expr} {is : List Expr}
    (hread : ∀ j ∈ i :: is, j.IsRead) (span : Span) : (Expr.index t (i :: is) span).IsRead := by
  refine isRead_of_extend h ht (by simp [Expr.unplaced]) rfl (Nat.succ_pos _) fun n rest x hlen
    hx => ?_
  obtain ⟨hn, hm⟩ := lengths_of_join hread hlen
  obtain ⟨hi, his⟩ := List.forall_mem_cons.mp hread
  obtain ⟨hni, hnis⟩ := List.forall_mem_cons.mp hn
  have hmore := takes_moreIndices his hnis (Nat.lt_of_succ_lt hm) rest
  have hitem := hi.takesItem hni (.inr rfl)
  obtain ⟨k, more, htokens, hk, -⟩ := hi.starts
  have hindex : Takes ((Grammar.ofBound n).indexOrSlice x)
      (TokenKind.join (.punct .comma) (tokenLists (i :: is)) ++ .punct .rbracket :: rest) rest
        fun y =>
        y.unplaced = (Expr.index t (i :: is) span).unplaced := by
    rw [tokenLists_eq, List.map_cons, TokenKind.join, List.append_assoc, List.flatMap_map]
    obtain ⟨l, tail, htail, hl⟩ :=
      TokenKind.exists_cons_following (.punct .comma) (.punct .rbracket) tokens is rest
    rw [htail] at hmore ⊢
    have hfirst := hitem l tail hl
    rw [htokens] at hfirst ⊢
    have hlow : Takes ((Grammar.ofBound n).exprUnless [.punct .colon]) (k :: more ++ l :: tail)
        (l :: tail) fun o => ∃ y, o = some y ∧ y.unplaced = i.unplaced := by
      refine takes_peek ?_
      have hne : ([TokenKind.punct .colon]).contains k = false := by
        rw [List.contains_eq_mem, decide_eq_false_iff_not, List.mem_singleton]
        rintro rfl
        cases hk
      rw [hne, if_neg Bool.false_ne_true]
      exact hfirst.bind fun y hy => .pure ⟨y, rfl, hy⟩
    refine hlow.bind ?_
    rintro _ ⟨y, rfl, hy⟩
    refine takes_accept_of_ne (by rcases hl with rfl | rfl <;> simp) ?_
    rw [Grammar.bound_ofBound]
    refine hmore.bind fun ys hys => takes_expect (takes_prevSpan fun _ => .pure ?_)
    rw [Expr.unplaced, Expr.unplaced, hx, allUnplaced_eq, allUnplaced_eq, List.map_cons,
      List.map_cons,
      hy, hys]
  rw [List.cons_append, List.append_assoc, List.singleton_append]
  exact takes_peek
    (takes_advance ((hindex.withBodyBrace false).bind fun y hy => .pure ⟨y, rfl, hy⟩))

private theorem arguments_of_forall₂ {args : List Expr} {ys : List (Expr × Bool)}
    (h : List.Forall₂ (fun a y => y.1.unplaced = a.unplaced ∧ y.2 = false) args ys) :
    (ys.map Prod.fst).map unplaced = args.map unplaced ∧ ys.any Prod.snd = false := by
  induction h with
  | nil => exact ⟨rfl, rfl⟩
  | cons hy _ ih =>
    rw [List.map_cons, List.map_cons, List.map_cons, List.any_cons, hy.1, hy.2, ih.1, ih.2]
    exact ⟨rfl, rfl⟩

theorem IsRead.call (h : t.IsRead) (ht : t.isOperator = false) {args : List Expr}
    (hread : ∀ a ∈ args, a.IsRead) (span : Span) : (Expr.call t args false span).IsRead := by
  refine isRead_of_extend h ht nofun rfl (Nat.succ_pos _) fun n rest x hlen hx => ?_
  obtain ⟨hn, hm⟩ := lengths_of_join hread hlen
  have hargument : ∀ a ∈ args, TakesItem (Grammar.ofBound n).argument
      (fun k => k = .punct .comma ∨ k = .punct .rparen) a.tokens
        (fun y => y.1.unplaced = a.unplaced ∧ y.2 = false) ∧
      ∃ k ks, a.tokens = k :: ks ∧ Continues (.punct .rparen) k := by
    intro a ha
    obtain ⟨k, more, htokens, hk, -⟩ := (hread a ha).starts
    refine ⟨fun l rest hl => ?_, k, more, htokens, ?_⟩
    · refine ((hread a ha).takesItem (hn a ha) (.inl rfl) l rest hl).bind fun y hy => ?_
      refine takes_accept_of_ne ?_ (.pure ⟨hy, rfl⟩)
      rcases hl with rfl | rfl <;> exact nofun
    · constructor <;> rintro rfl <;> cases hk
  have harguments : Takes (Grammar.ofBound n).arguments
      (TokenKind.join (.punct .comma) (tokenLists args) ++ .punct .rparen :: rest) rest fun ys =>
        List.Forall₂ (fun a y => y.1.unplaced = a.unplaced ∧ y.2 = false) args ys := by
    rw [tokenLists_eq, Grammar.arguments, Grammar.bound_ofBound]
    have hclose : TokenKind.punct .rparen ≠ .punct .comma := nofun
    exact (takes_commaList hclose hargument (Nat.le_of_lt hm) (Nat.zero_lt_of_lt hm)).bind
      fun ys hys => takes_expect (.pure hys)
  rw [List.cons_append, List.append_assoc, List.singleton_append]
  refine takes_peek (takes_advance ((harguments.withBodyBrace false).bind fun ys hys => ?_))
  refine takes_prevSpan fun _ => .pure ⟨_, rfl, ?_⟩
  obtain ⟨hfst, hsnd⟩ := arguments_of_forall₂ hys
  rw [Expr.unplaced, Expr.unplaced, hx, allUnplaced_eq, allUnplaced_eq, hfst, hsnd]

/-! ### Binary operators -/

/-- Behind the right operand the climb from the left one goes on. -/
theorem IsRead.binaryOp {y : Expr} (hx : x.IsRead) (hy : y.IsRead) {op : BinaryOp}
    (hleft : ∀ p ∈ x.precedence?, op.precedence ≤ p)
    (hright : ∀ p ∈ y.precedence?, op.precedence < p)
    (span : Span) : (Expr.binary op x y span).IsRead := by
  have htokens : (Expr.binary op x y span).tokens = x.tokens ++ .punct op.mark :: y.tokens := rfl
  refine ⟨?_, nofun, nofun, fun n least c k rest hn hleast hc hk hnext => ?_⟩
  · obtain ⟨k, more, hk, hstart, -⟩ := hx.starts
    exact ⟨k, _, by rw [htokens, hk, List.cons_append], hstart, nofun⟩
  have hprec : least ≤ op.precedence := hleast _ rfl
  have hxpos := hx.length_pos
  rw [htokens, List.length_append, List.length_cons] at hn
  rw [htokens, List.append_assoc, List.cons_append] at hc
  obtain ⟨x', c₁, m, hm, heq, hread⟩ := hx.climbs n least c (.punct op.mark) (y.tokens ++ k :: rest)
    (by omega) (fun p hp => Nat.le_trans hprec (hleft p hp)) hc (op.extendsOperand_mark _)
    (by simpa using hleft)
  obtain ⟨m, rfl⟩ : ∃ m', m = m' + 1 := ⟨m - 1, by omega⟩
  -- The next operator binds at most as tightly as this one, so the right operand ends in front of
  -- it.
  have hflag := c₁.leads_advance.bodyBrace.trans hread.leads.bodyBrace
  obtain ⟨y', c₂, hy', hread'⟩ := hy.binary (n := n) (by omega)
    (fun p hp => Nat.succ_le_of_lt (hright p hp)) (Cursor.kinds_advance hread.kinds) (hflag ▸ hk)
    fun op' hop' => Nat.lt_succ_of_le (hnext op' hop' _ rfl)
  have hstep : (Grammar.ofBound n).binaryStep least x' c₁ =
      .ok (some (.binary op x' y' (x'.span.union y'.span))) c₂ := by
    unfold Grammar.binaryStep
    rw [bind_eq_of_ok (rfl : peek c₁ = .ok c₁.kind c₁), Cursor.kind_of_kinds hread.kinds,
      BinaryOp.ofToken?_mark]
    show (if op.precedence < least then _ else _ : Parser (Option Expr)) c₁ = _
    rw [if_neg (Nat.not_lt.mpr hprec),
      bind_eq_of_ok (rfl : Parser.advance c₁ = .ok () c₁.advance), bind_eq_of_ok hy']
    rfl
  refine ⟨_, c₂, m, ?_, heq.trans (iterate_eq_of_some hstep), ?_⟩
  · rw [htokens, List.length_append, List.length_cons]
    omega
  · refine ⟨(hread.leads.trans c₁.leads_advance).trans hread'.leads, hread'.kinds, ?_⟩
    rw [Expr.unplaced, Expr.unplaced, hread.unplaced, hread'.unplaced]

/-- A grouped operation is read back from its tokens. -/
theorem isRead_of_isGrouped {valid : String → Bool} {e : Expr} (h : e.isOperation valid = true)
    (hgrouped : e.IsGrouped) : e.IsRead := by
  have steps : OperationSteps valid fun e => e.IsGrouped → e.IsRead :=
    { ident := fun id _ _ => isRead_ident id
      paren := fun x span _ ih hx => (ih ((isGrouped_iff _).mp hx)).paren span
      selector := fun x sel span _ ih _ hx => by
        obtain ⟨hop, hx⟩ := (isGrouped_iff _).mp hx
        exact (ih hx).selector hop sel span
      index := fun x i is span _ ih his hx => by
        obtain ⟨hop, hx, hgrouped⟩ := (isGrouped_iff _).mp hx
        exact (ih hx).index hop (fun j hj => (his j hj).2 (hgrouped j hj)) span
      call := fun fn args span _ ih hargs hx => by
        obtain ⟨hop, hx, hgrouped⟩ := (isGrouped_iff _).mp hx
        exact (ih hx).call hop (fun a ha => (hargs a ha).2 (hgrouped a ha)) span
      star := fun x span _ ih hx => by
        obtain ⟨hbinary, hx⟩ := (isGrouped_iff _).mp hx
        exact (ih hx).star hbinary span
      unary := fun op x span hop _ ih hx => by
        obtain ⟨hbinary, hx⟩ := (isGrouped_iff _).mp hx
        exact (ih hx).unaryOp hbinary hop span
      binary := fun op x y span _ ihx _ ihy h => by
        obtain ⟨⟨hleft, hright⟩, hx, hy⟩ := (isGrouped_iff _).mp h
        exact (ihx hx).binaryOp (ihy hy) hleft hright span }
  exact steps.all e h hgrouped

end Expr

end ServiceSplit
