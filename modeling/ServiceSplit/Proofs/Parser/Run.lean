import ServiceSplit.Proofs.Tree.Keys
import ServiceSplit.Proofs.Tree.Shape

/-!
# Runs of parsers

A run of a parser reads tokens up to the end of the text at most, whether it gives a value or fails.
This file has rules for what is known of a run, one for each way in which parsers are put together:
how many tokens it reads at least, that it fails for want of depth only on a long text, where the
statements in its value start and what the value is like. What the tokens, the places where they
stand and the values are known to be is left open.
-/

namespace ServiceSplit

namespace Cursor

/-- The cursor `c'` comes from `c` by reading the tokens `read`. -/
structure Reads (c : Cursor) (read : List Token) (c' : Cursor) : Prop where
  rest : c.rest = read ++ c'.rest
  prev : c'.prev = read.getLast?.or c.prev

/-- The cursor `c'` comes from `c` by reading the tokens `read`, none of which is the end of the
text, and braces are read as before. -/
structure Moves (c : Cursor) (read : List Token) (c' : Cursor) : Prop extends Reads c read c' where
  brace : c'.bodyBrace = c.bodyBrace
  inside : ∀ t ∈ read, t.kind ≠ .eof

/-- The last token read and the tokens to come stand one behind the other. -/
structure InOrder (c : Cursor) : Prop where
  follow : (c.prev.toList ++ c.rest).Pairwise fun t u => t.stop ≤ u.start
  le : ∀ t ∈ c.prev.toList ++ c.rest, t.start ≤ t.stop

variable {c c' c'' : Cursor} {read read' : List Token}

theorem Reads.refl (c : Cursor) : c.Reads [] c :=
  ⟨rfl, rfl⟩

theorem Reads.trans (h : c.Reads read c') (h' : c'.Reads read' c'') :
    c.Reads (read ++ read') c'' := by
  refine ⟨by rw [h.rest, h'.rest, List.append_assoc], ?_⟩
  rw [h'.prev, h.prev, List.getLast?_append, Option.or_assoc]

theorem Reads.of_eq (hrest : c'.rest = c.rest) (hprev : c'.prev = c.prev) : c.Reads [] c' :=
  ⟨hrest.symm, hprev⟩

theorem Reads.advance {t : Token} {ts : List Token} (h : c.rest = t :: ts) :
    c.Reads [t] c.advance := by
  constructor <;> simp [Cursor.advance, h]

theorem Moves.of_eq (hrest : c'.rest = c.rest) (hprev : c'.prev = c.prev)
    (hbrace : c'.bodyBrace = c.bodyBrace) : c.Moves [] c' :=
  ⟨.of_eq hrest hprev, hbrace, nofun⟩

theorem Moves.refl (c : Cursor) : c.Moves [] c :=
  .of_eq rfl rfl rfl

theorem Moves.trans (h : c.Moves read c') (h' : c'.Moves read' c'') : c.Moves (read ++ read') c'' :=
  ⟨h.toReads.trans h'.toReads, h'.brace.trans h.brace, List.forall_mem_append.mpr
    ⟨h.inside, h'.inside⟩⟩

theorem Moves.length (h : c.Moves read c') : c.rest.length = read.length + c'.rest.length := by
  rw [h.rest, List.length_append]

/-- In front of the end there is a token to read. -/
theorem moves_advance (h : c.kind ≠ .eof) : ∃ t, c.Moves [t] c.advance := by
  cases hrest : c.rest with
  | nil => exact absurd (by simp [kind, hrest]) h
  | cons t ts =>
    refine ⟨t, .advance hrest, by simp [advance, hrest], List.forall_mem_singleton.mpr ?_⟩
    simpa [kind, hrest] using h

theorem prevSpan_advance (h : c.kind ≠ .eof) :
    ∃ stop, c.advance.prevSpan = .range c.start stop := by
  obtain ⟨t, hmoves⟩ := moves_advance h
  exact ⟨t.stop, by simp [prevSpan, start, Token.span, hmoves.prev, hmoves.rest]⟩

theorem kind_advance (c : Cursor) : c.advance.kind = c.kindAt 1 := by
  obtain ⟨rest, prev, comments, bodyBrace⟩ := c
  cases rest <;> rfl

/-- Tokens that are read start no earlier than the first of them. -/
theorem InOrder.start_le (h : c.InOrder) (hreads : c.Reads read c') (hne : read ≠ []) :
    c.start ≤ c'.prevSpan.start ∧ c.start ≤ c'.start := by
  obtain ⟨front, t, rfl⟩ := (List.eq_nil_or_concat read).resolve_left hne
  have hprev : c'.prev = some t := by simp [hreads.prev]
  have hmem : t ∈ c.prev.toList ++ c.rest := by simp [hreads.rest]
  have hfollow := (List.pairwise_append.mp h.follow).2.1
  have hfirst : c.start ≤ t.start := by
    cases front with
    | nil => simp [Cursor.start, hreads.rest]
    | cons u front =>
      have hu := h.le u (by simp [hreads.rest])
      rw [hreads.rest] at hfollow
      have hut := List.rel_of_pairwise_cons hfollow (show t ∈ _ by simp)
      have hstart : c.start = u.start := by simp [Cursor.start, hreads.rest]
      omega
  have hle := h.le t hmem
  refine ⟨by simpa [prevSpan, hprev, Token.span, Span.start] using hfirst, ?_⟩
  cases hrest : c'.rest with
  | nil =>
    have hstart : c'.start = t.stop := by simp [Cursor.start, hrest, hprev]
    omega
  | cons u us =>
    have htu : t.stop ≤ u.start := by
      rw [hreads.rest, List.concat_eq_append, List.append_assoc, hrest] at hfollow
      exact List.rel_of_pairwise_cons (List.pairwise_append.mp hfollow).2.1 (by simp)
    have hstart : c'.start = u.start := by simp [Cursor.start, hrest]
    omega

end Cursor

open ServiceSplit.Parser

/-- The first step of a sequence that gives a value gives one. -/
theorem Parser.exists_of_bind_eq_ok {α β : Type} {p : Parser α} {f : α → Parser β} {c c'' : Cursor}
    {b : β} (h : (p >>= f) c = .ok b c'') : ∃ a c', p c = .ok a c' ∧ f a c' = .ok b c'' := by
  change EStateM.bind p f c = _ at h
  unfold EStateM.bind at h
  split at h
  · rename_i a c' hp
    exact ⟨a, c', hp, h⟩
  · cases h

/-- The first bytes of the tokens but semicolons, which may have no text. -/
def startsOf (ts : List Token) : List Nat :=
  (ts.filter (·.kind != .punct .semi)).map Token.start

@[simp] theorem startsOf_append (ts us : List Token) :
    startsOf (ts ++ us) = startsOf ts ++ startsOf us := by
  simp [startsOf]

theorem startsOf_drop {ts : List Token} {m n : Nat} (h : m ≤ n) :
    (startsOf (ts.drop n)).Sublist (startsOf (ts.drop m)) :=
  ((List.drop_sublist_drop_left ts h).filter _).map _

section Lag

variable {α β : Type} [HasKeys α] [HasKeys β]

/-- The statements in values of the type start behind the first token. -/
class Lagging (α : Type) [HasKeys α] : Prop where
  eq_true : lag α = true

/-- The statements in values of the type may start at the first token. -/
class Prompt (α : Type) [HasKeys α] : Prop where
  eq_false : lag α = false

/-- Where the statements in values of type `β` start behind the first token, so do those in values
of type `α`. -/
class LagsLike (α β : Type) [HasKeys α] [HasKeys β] : Prop where
  imp : lag β = true → lag α = true

instance (α : Type) : @Lagging α (HasKeys.none α) :=
  @Lagging.mk α (HasKeys.none α) rfl

instance [h : Lagging α] : Lagging (List α) :=
  ⟨h.eq_true⟩

instance [h : Lagging α] [h' : Lagging β] : Lagging (α × β) :=
  ⟨by simp [lag, h.eq_true, h'.eq_true]⟩

instance : Lagging TypeExpr :=
  ⟨rfl⟩

instance : Lagging Expr :=
  ⟨rfl⟩

instance : Lagging Field :=
  ⟨rfl⟩

instance : Lagging UnionTerm :=
  ⟨rfl⟩

instance : Lagging InterfaceElem :=
  ⟨rfl⟩

instance : Lagging Signature :=
  ⟨rfl⟩

instance : Lagging Block :=
  ⟨rfl⟩

instance : Prompt Stmt :=
  ⟨rfl⟩

instance : Prompt GenDecl :=
  ⟨rfl⟩

instance : Prompt Decl :=
  ⟨rfl⟩

instance : Prompt ForHeader :=
  ⟨rfl⟩

instance [h : Lagging α] : LagsLike α β :=
  ⟨fun _ => h.eq_true⟩

instance [h : Prompt β] : LagsLike α β :=
  ⟨fun hlag => absurd hlag (by simp [h.eq_false])⟩

instance : LagsLike α α :=
  ⟨id⟩

instance : LagsLike α (List α) :=
  ⟨id⟩

end Lag

/-- The kind of a token is not that of the end. -/
class TokenKind.NotEnd (k : TokenKind) : Prop where
  ne_eof : k ≠ .eof

instance (p : Punct) : TokenKind.NotEnd (.punct p) :=
  ⟨nofun⟩

instance (k : Keyword) : TokenKind.NotEnd (.keyword k) :=
  ⟨nofun⟩

instance (kind : LitKind) (text : String) : TokenKind.NotEnd (.literal kind text) :=
  ⟨nofun⟩

instance (name : String) : TokenKind.NotEnd (.ident name) :=
  ⟨nofun⟩

/-- The next token of a cursor with the property is not the end. -/
class Cursor.Before (P : Cursor → Prop) : Prop where
  ne_eof : ∀ c, P c → c.kind ≠ .eof

instance {k : TokenKind} [hk : k.NotEnd] : Cursor.Before fun c => c.kind = k :=
  ⟨fun _ h => h ▸ hk.ne_eof⟩

instance {P Q : Cursor → Prop} [Cursor.Before Q] : Cursor.Before fun c => P c ∧ Q c :=
  ⟨fun c h => Cursor.Before.ne_eof c h.2⟩

instance {P Q : Cursor → Prop} [Cursor.Before P] : Cursor.Before fun c => P c ∧ Q c :=
  ⟨fun c h => Cursor.Before.ne_eof c h.1⟩

/-- The number is zero or one. -/
class AtMostOne {α : Type} (l : α → Nat) : Prop where
  le_one : ∀ a, l a ≤ 1

instance {α : Type} : AtMostOne fun _ : α => 0 :=
  ⟨fun _ => Nat.zero_le 1⟩

instance {α : Type} : AtMostOne fun _ : α => 1 :=
  ⟨fun _ => Nat.le_refl 1⟩

instance {α : Type} : AtMostOne fun o : Option α => o.isSome.toNat :=
  ⟨fun o => o.isSome.toNat_le⟩

instance {α : Type} {l : α → Nat} [AtMostOne l] {k : Nat} : AtMostOne fun a => l a - k :=
  ⟨fun a => Nat.le_trans (Nat.sub_le _ _) (AtMostOne.le_one a)⟩

theorem AtMostOne.sub_le {α : Type} {l : α → Nat} [AtMostOne l] (a : α) : l a - 1 ≤ 0 :=
  Nat.sub_le_of_le_add (AtMostOne.le_one a)

/-- What is known inside a part: the byte where it started, and where the statements in the values
that have been made start. -/
structure Prior where
  start : Nat
  keys : List Nat

/-- What is known behind one more value. -/
abbrev Prior.and {α : Type} [HasKeys α] (F : Prior) (a : α) : Prior :=
  ⟨F.start, F.keys ++ HasKeys.keys a⟩

/-- What comes behind the start of a span does not move it. -/
theorem Span.union_eq_range {s e : Nat} {sp : Span} (h : s ≤ sp.start) :
    ∃ stop, (Span.range s e).union sp = .range s stop := by
  cases sp with
  | synthetic => exact ⟨e, rfl⟩
  | range a b =>
    have hle : s ≤ a := h
    exact ⟨max e b, by rw [Span.union, Nat.min_eq_left hle]⟩

/-- What is known of the tokens to come, and of the kinds and the places that are met. -/
structure Basis extends Known where
  holds : Cursor → Prop
  sorted : Prop
  reads : ∀ {c read c'}, holds c → c.Reads read c' → holds c'
  next : ∀ {c}, holds c → kind c.kind
  inOrder : ∀ {c}, sorted → holds c → c.InOrder
  here : ∀ {c}, holds c → span c.here
  prevSpan : ∀ {c}, holds c → span c.prevSpan
  spanFrom : ∀ {c c'}, holds c → holds c' → span (c'.spanFrom c.start)
  union : ∀ {sp sp'}, span sp → span sp' → span (sp.union sp')

namespace Basis

variable {α β : Type} [HasKeys α] [HasKeys β]

section

variable (B : Basis)

/-- The cursor comes from one whose next token started at byte `s`. -/
def At (s : Nat) (c : Cursor) : Prop :=
  ∃ c₀ read, B.holds c₀ ∧ c₀.start = s ∧ c₀.Reads read c

/-- How a run from the cursor `c` ends: with a value of which `Q` holds, behind as many tokens as
`least` tells, or with an error, which is for want of depth only if `n` tokens or more were to come.
The statements in the value start at the places known before, `K`, and at tokens that are read. -/
def Ends (K : List Nat) (n : Nat) (least : α → Nat) (Q : α → Prop) (c : Cursor) :
    EStateM.Result SyntaxError Cursor α → Prop
  | .ok a c' => (∃ read, c.Moves read c' ∧ least a ≤ read.length ∧ (B.sorted →
      (keys a).Sublist (K ++ startsOf (read.drop (least a * (lag α).toNat))))) ∧ Q a
  | .error e c' => (∃ read, c.Moves read c') ∧ (e.cause = .tooDeep → n ≤ c.rest.length) ∧
      B.span e.span

/-- How the parser runs from cursors of which `P` holds, inside a part of which `F` is known. -/
def Run (P : Cursor → Prop) (F : Prior) (n : Nat) (least : α → Nat) (p : Parser α) (Q : α → Prop) :
    Prop :=
  ∀ c, P c → B.At F.start c → B.Ends F.keys n least Q c (p c)

/-- Behind values whose statements start at `K`, the parser makes values of which `Q` holds. -/
def From (K : List Nat) (n : Nat) (p : Parser α) (Q : α → Prop) : Prop :=
  ∀ s, B.Run (fun _ => True) ⟨s, K⟩ n (fun _ => 0) p Q

/-- The parser makes values of which `Q` holds, from any number of tokens. -/
def Passes (n : Nat) (p : Parser α) (Q : α → Prop) : Prop :=
  ∀ s, B.Run (fun _ => True) ⟨s, []⟩ n (fun _ => 0) p Q

/-- The parser makes values of which `Q` holds, from one token or more. -/
def Takes (n : Nat) (p : Parser α) (Q : α → Prop) : Prop :=
  ∀ s, B.Run (fun _ => True) ⟨s, []⟩ n (fun _ => 1) p Q

/-- The parser makes values of which `Q` holds together with the first byte of the first token,
which is no semicolon. -/
def Opens (n : Nat) (p : Parser α) (Q : Nat → α → Prop) : Prop :=
  ∀ s k, B.Run (fun c => c.start = s ∧ c.kind = k) ⟨s, []⟩ n (fun _ => 1) p fun a =>
    Q s a ∧ k ≠ .punct .semi

/-- The span is known, and starts at a given byte if the tokens stand in order. -/
structure SpanAt (s : Nat) (sp : Span) : Prop where
  known : B.span sp
  start : B.sorted → ∃ stop, sp = .range s stop

end

variable {B : Basis} {P W : Cursor → Prop} {F : Prior} {H K : List Nat} {s m n k : Nat}
  {l l' : β → Nat} {p : Parser α} {q : Parser β} {f : α → Parser β} {R : α → Prop} {Q Q' : β → Prop}
  {c c' : Cursor}

theorem At.reads {read : List Token} (h : B.At s c) (hreads : c.Reads read c') : B.At s c' := by
  obtain ⟨c₀, before, hc₀, hs, hbefore⟩ := h
  exact ⟨c₀, before ++ read, hc₀, hs, hbefore.trans hreads⟩

theorem At.holds (h : B.At s c) : B.holds c := by
  obtain ⟨c₀, read, hc₀, -, hread⟩ := h
  exact B.reads hc₀ hread

theorem at_start (h : B.holds c) : B.At c.start c :=
  ⟨c, [], h, rfl, .refl c⟩

theorem SpanAt.union {sp sp' : Span} (h : B.SpanAt s sp) (h' : B.span sp')
    (hle : B.sorted → s ≤ sp'.start) : B.SpanAt s (sp.union sp') := by
  refine ⟨B.union h.known h', fun hsorted => ?_⟩
  obtain ⟨stop, rfl⟩ := h.start hsorted
  exact Span.union_eq_range (hle hsorted)

/-! ### Runs -/

theorem Run.mono (h : B.Run P ⟨s, K⟩ n l q Q) (hn : m ≤ n) (hl : ∀ b, l' b ≤ l b)
    (hQ : ∀ b, Q b → Q' b) :
    B.Run P ⟨s, K⟩ m l' q Q' := by
  intro c hP hat
  have hend := h c hP hat
  cases hrun : q c with
  | ok b c' =>
    rw [hrun] at hend
    obtain ⟨⟨read, hmoves, hlen, hkeys⟩, hb⟩ := hend
    exact ⟨⟨read, hmoves, Nat.le_trans (hl b) hlen, fun hsorted => (hkeys hsorted).trans
      ((startsOf_drop (Nat.mul_le_mul_right _ (hl b))).append_left K)⟩, hQ b hb⟩
  | error e c' =>
    rw [hrun] at hend
    exact ⟨hend.1, fun hdeep => Nat.le_trans hn (hend.2.1 hdeep), hend.2.2⟩

/-- What is known of the cursors beforehand is known of the run. -/
theorem Run.assume {A : Prop} (hA : ∀ c, P c → A) (h : A → B.Run P F n l q Q) : B.Run P F n l q Q :=
  fun c hP => h (hA c hP) c hP

theorem Run.of_imp (h : B.Run W F n l q Q) (hP : ∀ c, P c → W c) : B.Run P F n l q Q :=
  fun c hc => h c (hP c hc)

/-- More values may have been made before. -/
theorem Run.frame (h : B.Run P ⟨F.start, K⟩ n l q Q) (hK : K.Sublist F.keys) :
    B.Run P F n l q Q := by
  intro c hP hat
  have hend := h c hP hat
  cases hrun : q c with
  | ok b c' =>
    rw [hrun] at hend
    obtain ⟨⟨read, hmoves, hlen, hkeys⟩, hb⟩ := hend
    exact ⟨⟨read, hmoves, hlen, fun hsorted => (hkeys hsorted).trans (hK.append_right _)⟩, hb⟩
  | error e c' =>
    rw [hrun] at hend
    exact hend

theorem From.run (h : B.From K n q Q) (hK : K.Sublist F.keys) :
    B.Run P F n (fun _ => 0) q Q :=
  ((h F.start).of_imp fun _ _ => trivial).frame hK

theorem Passes.run (h : B.Passes n q Q) : B.Run P F n (fun _ => 0) q Q :=
  From.run h (List.nil_sublist _)

theorem Takes.run [AtMostOne l] (h : B.Takes n q Q) : B.Run P F n l q Q :=
  (((h F.start).mono (Nat.le_refl _) AtMostOne.le_one fun _ hb => hb).of_imp fun _ _ =>
    trivial).frame
    (List.nil_sublist _)

theorem Takes.passes (h : B.Takes n q Q) : B.Passes n q Q :=
  fun _ => h.run

theorem Takes.mono (h : B.Takes n q Q) (hQ : ∀ b, Q b → Q' b) : B.Takes n q Q' :=
  fun s => (h s).mono (Nat.le_refl _) (fun _ => (Nat.le_refl _)) hQ

theorem Passes.le (h : B.Passes n q Q) (hm : m ≤ n) : B.Passes m q Q :=
  fun s => (h s).mono hm (fun _ => (Nat.le_refl _)) fun _ hb => hb

theorem Takes.le (h : B.Takes n q Q) (hm : m ≤ n) : B.Takes m q Q :=
  fun s => (h s).mono hm (fun _ => (Nat.le_refl _)) fun _ hb => hb

theorem Takes.pred (h : B.Takes (n + 1) q Q) : B.Takes n q Q :=
  h.le n.le_succ

/-! ### Sequences -/

/-- What was read before counts as well. -/
theorem Ends.after {read : List Token} {r : EStateM.Result SyntaxError Cursor β}
    (h : B.Ends H (n - k) (fun b => l b - k) Q c' r) (hmoves : c.Moves read c')
    (hk : k ≤ read.length)
    (hH : B.sorted → ∀ b, H.Sublist (K ++ startsOf (read.drop (l b * (lag β).toNat)))) :
    B.Ends K n l Q c r := by
  cases r with
  | ok b c'' =>
    obtain ⟨⟨read', hmoves', hlen, hkeys⟩, hb⟩ := h
    refine ⟨⟨read ++ read', hmoves.trans hmoves', ?_, fun hsorted => ?_⟩, hb⟩
    · rw [List.length_append]
      exact Nat.le_trans (Nat.sub_le_iff_le_add.mp hlen) (by omega)
    · rw [List.drop_append, startsOf_append, ← List.append_assoc]
      refine (hkeys hsorted).trans ((hH hsorted b).append (startsOf_drop ?_))
      cases lag β <;> simp
      omega
  | error e c'' =>
    obtain ⟨⟨read', hmoves'⟩, hdeep, hspan⟩ := h
    refine ⟨⟨read ++ read', hmoves.trans hmoves'⟩, fun heq => ?_, hspan⟩
    have hlen := hmoves.length
    have hrest := hdeep heq
    omega

/-- The value of a parser takes the place of the values it is made from. -/
theorem Run.bindFrom {k : α → Nat} (hp : B.Run P ⟨F.start, K⟩ n k p R)
    (hF : (H ++ K).Sublist F.keys) (hlag : ∀ a b, l b * (lag β).toNat ≤ k a * (lag α).toNat)
    (hf : ∀ a, R a →
      B.Run (fun _ => True) ⟨F.start, H ++ keys a⟩ (n - k a) (fun b => l b - k a) (f a) Q) :
    B.Run P F n l (p >>= f) Q := by
  intro c hP hat
  have hend := hp c hP hat
  change B.Ends F.keys n l Q c (EStateM.bind p f c)
  unfold EStateM.bind
  cases hrun : p c with
  | ok a c' =>
    rw [hrun] at hend
    obtain ⟨⟨read, hmoves, hk, hkeys⟩, ha⟩ := hend
    refine (hf a ha c' trivial (hat.reads hmoves.toReads)).after hmoves hk fun hsorted b => ?_
    refine ((hkeys hsorted).append_left H).trans ?_
    rw [← List.append_assoc]
    exact hF.append (startsOf_drop (hlag a b))
  | error e c' =>
    rw [hrun] at hend
    exact hend

theorem Run.bind {k : α → Nat} (hp : B.Run P ⟨F.start, []⟩ n k p R)
    (hlag : ∀ a b, l b * (lag β).toNat ≤ k a * (lag α).toNat)
    (hf : ∀ a, R a → B.Run (fun _ => True) (F.and a) (n - k a) (fun b => l b - k a) (f a) Q) :
    B.Run P F n l (p >>= f) Q :=
  .bindFrom (H := F.keys) hp (by simp) hlag hf

theorem From.bind (hp : B.From K n p R) (hF : (H ++ K).Sublist F.keys)
    (hf : ∀ a, R a → B.Run (fun _ => True) ⟨F.start, H ++ keys a⟩ n (fun _ => 0) (f a) Q) :
    B.Run P F n (fun _ => 0) (p >>= f) Q :=
  .bindFrom ((hp _).of_imp fun _ _ => trivial) hF (by simp) hf

theorem Passes.bind (hp : B.Passes n p R)
    (hf : ∀ a, R a → B.Run (fun _ => True) (F.and a) n (fun _ => 0) (f a) Q) :
    B.Run P F n (fun _ => 0) (p >>= f) Q :=
  Run.bind hp.run (by simp) hf

/-- Behind a value in which no statement stands. -/
theorem Passes.bindOther (hp : B.Passes n p R)
    (hf : ∀ a, R a → B.Run (fun _ => True) F n l (f a) Q) :
    B.Run P F n l (p >>= f) Q := by
  intro c _ hat
  have hend := hp F.start c trivial hat
  change B.Ends F.keys n l Q c (EStateM.bind p f c)
  unfold EStateM.bind
  cases hrun : p c with
  | ok a c' =>
    rw [hrun] at hend
    obtain ⟨⟨read, hmoves, -⟩, ha⟩ := hend
    exact Ends.after (k := 0) (hf a ha c' trivial (hat.reads hmoves.toReads)) hmoves (Nat.zero_le _)
      fun _ _ => List.sublist_append_left _ _
  | error e c' =>
    rw [hrun] at hend
    exact hend

theorem AtMostOne.lag_le [AtMostOne l] [hlag : LagsLike α β] (b : β) :
    l b * (lag β).toNat ≤ 1 * (lag α).toNat := by
  have hle := AtMostOne.le_one (l := l) b
  have himp := hlag.imp
  cases hβ : lag β
  · simp
  · simpa [himp hβ] using hle

/-- Behind a parser that takes a token, nothing more has to be read. -/
theorem Run.take [AtMostOne l] [LagsLike α β] (hp : B.Run P ⟨F.start, []⟩ n (fun _ => 1) p R)
    (hf : ∀ a, R a → B.Run (fun _ => True) (F.and a) n (fun _ => 0) (f a) Q) :
    B.Run P F n l (p >>= f) Q :=
  hp.bind (fun _ => AtMostOne.lag_le) fun a ha =>
    (hf a ha).mono (n.sub_le 1) AtMostOne.sub_le fun _ hb => hb

theorem Takes.bind [AtMostOne l] [LagsLike α β] (hp : B.Takes n p R)
    (hf : ∀ a, R a → B.Run (fun _ => True) (F.and a) n (fun _ => 0) (f a) Q) :
    B.Run P F n l (p >>= f) Q :=
  .take hp.run hf

/-- Behind a parser that takes a token, one token less remains. -/
theorem Run.first [AtMostOne l] [LagsLike α β] (hp : B.Run P ⟨F.start, []⟩ (n + 1) (fun _ => 1) p R)
    (hf : ∀ a, R a → B.Run (fun _ => True) (F.and a) n (fun _ => 0) (f a) Q) :
    B.Run P F (n + 1) l (p >>= f) Q :=
  hp.bind (fun _ => AtMostOne.lag_le) fun a ha =>
    (hf a ha).mono (Nat.le_refl _) AtMostOne.sub_le fun _ hb => hb

theorem Takes.first [AtMostOne l] [LagsLike α β] (hp : B.Takes (n + 1) p R)
    (hf : ∀ a, R a → B.Run (fun _ => True) (F.and a) n (fun _ => 0) (f a) Q) :
    B.Run P F (n + 1) l (p >>= f) Q :=
  .first hp.run hf

theorem Run.pureIf {b : β} (hl : l b = 0) (hb : B.sorted → (keys b).Sublist F.keys) (h : Q b) :
    B.Run P F n l (pure b) Q :=
  fun c _ _ =>
    ⟨⟨[], .refl c, Nat.le_of_eq hl, fun hsorted =>
      (hb hsorted).trans (List.sublist_append_left _ _)⟩, h⟩

theorem Run.pure {b : β} (hb : l b = 0 ∧ (keys b).Sublist F.keys) (h : Q b) :
    B.Run P F n l (pure b) Q :=
  .pureIf hb.1 (fun _ => hb.2) h

omit [HasKeys α] in
theorem Run.pure_bind {a : α} (h : B.Run P F n l (f a) Q) : B.Run P F n l (Pure.pure a >>= f) Q :=
  h

theorem Run.map [AtMostOne l] [LagsLike α β] {g : α → β} (hp : B.Run P F n (fun _ => 1) p R)
    (hg : ∀ a, R a → Q (g a)) (hkeys : ∀ a, (keys (g a)).Sublist (keys a)) :
    B.Run P F n l (g <$> p) Q := by
  rw [← bind_pure_comp]
  exact .bindFrom (H := []) hp (List.Sublist.refl _) (fun _ => AtMostOne.lag_le) fun a ha =>
    .pure ⟨Nat.sub_eq_zero_of_le (AtMostOne.le_one _), hkeys a⟩ (hg a ha)

theorem From.map {g : α → β} (hp : B.From K n p R) (hg : ∀ a, R a → Q (g a))
    (hkeys : ∀ a, (keys (g a)).Sublist (keys a)) : B.From K n (g <$> p) Q := by
  intro s
  rw [← bind_pure_comp]
  exact hp.bind (H := []) (List.Sublist.refl _) fun a ha => .pure ⟨rfl, hkeys a⟩ (hg a ha)

theorem Passes.map {g : α → β} (hp : B.Passes n p R) (hg : ∀ a, R a → Q (g a))
    (hkeys : ∀ a, (keys (g a)).Sublist (keys a)) : B.Passes n (g <$> p) Q :=
  From.map hp hg hkeys

/-- Two ways that go on together. -/
theorem Run.bind_ite {p' : Parser α} {t : Prop} [Decidable t] (hp : B.Passes n p R)
    (hp' : B.Passes n p' R)
    (hf : ∀ a, R a → B.Run (fun _ => True) (F.and a) n (fun _ => 0) (f a) Q) :
    B.Run P F n (fun _ => 0) (if t then p >>= f else p' >>= f) Q := by
  split
  · exact hp.bind hf
  · exact hp'.bind hf

/-- A value that may be absent. -/
theorem Passes.some (hp : B.Passes n p R) : B.Passes n (some <$> p) fun o => ∀ a ∈ o, R a :=
  hp.map (fun _ ha _ hb => Option.mem_some.mp hb ▸ ha) (by simp)

theorem passes_pure {b : β} (hkeys : (keys b).Sublist []) (h : Q b) : B.Passes n (pure b) Q :=
  fun _ => .pure ⟨rfl, hkeys⟩ h

theorem passes_none : B.Passes n (pure none : Parser (Option α)) fun o => ∀ a ∈ o, R a :=
  passes_pure (by simp) nofun

/-! ### Errors -/

theorem Run.throw {e : SyntaxError} (he : e.cause ≠ .tooDeep) (hspan : B.span e.span) :
    B.Run P F n l (throw e) Q :=
  fun c _ _ => ⟨⟨[], .refl c⟩, fun heq => absurd heq he, hspan⟩

theorem Run.failAt {cause : SyntaxCause} {span : Span} (he : cause ≠ .tooDeep)
    (hspan : B.span span) :
    B.Run P F n l (failAt cause span) Q :=
  .throw he hspan

theorem Run.fail {cause : SyntaxCause} (he : cause ≠ .tooDeep) :
    B.Run P F n l (fail cause) Q :=
  fun c _ hat => ⟨⟨[], .refl c⟩, fun heq => absurd heq he, B.here hat.holds⟩

omit [HasKeys α] in
theorem Run.fail_bind {cause : SyntaxCause} (he : cause ≠ .tooDeep) :
    B.Run P F n l (Parser.fail cause >>= f) Q :=
  fun c _ hat => ⟨⟨[], .refl c⟩, fun heq => absurd heq he, B.here hat.holds⟩

theorem Run.tooDeep : B.Run P F 0 l (Parser.fail .tooDeep) Q :=
  fun c _ hat => ⟨⟨[], .refl c⟩, fun _ => Nat.zero_le _, B.here hat.holds⟩

/-! ### Looking ahead and back -/

theorem Run.peek {f : TokenKind → Parser β}
    (hf : ∀ k, B.kind k → B.Run (fun c => P c ∧ c.kind = k) F n l (f k) Q) :
    B.Run P F n l (peek >>= f) Q :=
  fun c hP hat => hf c.kind (B.next hat.holds) c ⟨hP, rfl⟩ hat

theorem Run.peekAt {i : Nat} {f : TokenKind → Parser β}
    (hf : ∀ k, B.Run (fun c => P c ∧ c.kindAt i = k) F n l (f k) Q) :
    B.Run P F n l (peekAt i >>= f) Q :=
  fun c hP hat => hf (c.kindAt i) c ⟨hP, rfl⟩ hat

theorem Run.check {k : TokenKind} {f : Bool → Parser β}
    (hf : ∀ b, B.Run (fun c => P c ∧ (c.kind == k) = b) F n l (f b) Q) :
    B.Run P F n l (check k >>= f) Q :=
  fun c hP hat => hf (c.kind == k) c ⟨hP, rfl⟩ hat

theorem Run.get {f : Cursor → Parser β} (hf : ∀ c, B.Run P F n l (f c) Q) :
    B.Run P F n l (get >>= f) Q :=
  fun c hP hat => hf c c hP hat

/-- A new part starts here. -/
theorem Run.position {f : Nat → Parser β} (hf : ∀ s, B.Run P ⟨s, F.keys⟩ n l (f s) Q) :
    B.Run P F n l (position >>= f) Q :=
  fun c hP hat => hf c.start c hP (at_start hat.holds)

/-- The part starts at the next token. -/
theorem Run.positionAt {f : Nat → Parser β} (hP : ∀ c, P c → c.start = s)
    (hf : B.Run P ⟨s, F.keys⟩ n l (f s) Q) : B.Run P F n l (Parser.position >>= f) Q := by
  intro c hc hat
  obtain rfl := hP c hc
  exact hf c hc (at_start hat.holds)

theorem Run.prevSpan {f : Span → Parser β} (hf : ∀ sp, B.span sp → B.Run P F n l (f sp) Q) :
    B.Run P F n l (Parser.prevSpan >>= f) Q :=
  fun c hP hat => hf c.prevSpan (B.prevSpan hat.holds) c hP hat

theorem Run.spanUpTo {f : Span → Parser β}
    (hf : ∀ stop, B.span (.range F.start stop) → B.Run P F n l (f (.range F.start stop)) Q) :
    B.Run P F n l (Parser.spanFrom F.start >>= f) Q := by
  intro c hP hat
  refine hf _ ?_ c hP hat
  obtain ⟨c₀, read, hc₀, hs, -⟩ := id hat
  exact hs ▸ B.spanFrom hc₀ hat.holds

theorem Run.spanFrom {f : Span → Parser β} (hf : ∀ sp, B.span sp → B.Run P F n l (f sp) Q) :
    B.Run P F n l (Parser.spanFrom F.start >>= f) Q :=
  .spanUpTo fun _ hsp => hf _ hsp

/-! ### Single tokens -/

theorem Run.advance {f : Unit → Parser β} (hne : ∀ c, P c → c.kind ≠ .eof)
    (hP : ∀ c, P c → W c.advance) (hf : B.Run W F (n - 1) (fun b => l b - 1) (f ()) Q) :
    B.Run P F n l (advance >>= f) Q := by
  intro c hc hat
  obtain ⟨t, hmoves⟩ := Cursor.moves_advance (hne c hc)
  exact (hf c.advance (hP c hc) (hat.reads hmoves.toReads)).after hmoves (Nat.le_refl _)
    fun _ _ => List.sublist_append_left _ _

/-- Reads the token that is known to come next. -/
theorem Run.nextOf [AtMostOne l] {f : Unit → Parser β} (hne : ∀ c, P c → c.kind ≠ .eof)
    (hf : B.Run (fun _ => True) F n (fun _ => 0) (f ()) Q) :
    B.Run P F (n + 1) l (Parser.advance >>= f) Q :=
  .advance hne (fun _ _ => trivial) (hf.mono (Nat.le_refl _) AtMostOne.sub_le fun _ hb => hb)

theorem Run.next [Cursor.Before P] [AtMostOne l] {f : Unit → Parser β}
    (hf : B.Run (fun _ => True) F n (fun _ => 0) (f ()) Q) :
    B.Run P F (n + 1) l (Parser.advance >>= f) Q :=
  .nextOf Cursor.Before.ne_eof hf

/-- Reads the token that is known to come next, where a statement starts. -/
theorem Run.startWith [AtMostOne l] [hprompt : Prompt β] {f : Nat → Parser β}
    (hP : ∀ c, P c → c.kind ≠ .eof ∧ c.kind ≠ .punct .semi)
    (hf : ∀ s, B.Run (fun _ => True) ⟨s, F.keys ++ [s]⟩ n (fun _ => 0) (f s) Q) :
    B.Run P F (n + 1) l (Parser.position >>= fun s => Parser.advance >>= fun _ => f s) Q := by
  intro c hc hat
  obtain ⟨t, hmoves⟩ := Cursor.moves_advance (hP c hc).1
  have hrest : c.rest = t :: c.advance.rest := hmoves.rest
  have hkind : t.kind ≠ .punct .semi := by simpa [Cursor.kind, hrest] using (hP c hc).2
  have hstart : c.start = t.start := by simp [Cursor.start, hrest]
  refine ((hf c.start).mono (Nat.le_refl _) AtMostOne.sub_le (fun _ hb => hb)
    c.advance trivial ((at_start hat.holds).reads hmoves.toReads)).after hmoves (Nat.le_refl _)
    fun _ _ => ?_
  simp [hprompt.eq_false, startsOf, hkind, hstart]

/-- Reads the token that is known to come next inside a part. -/
theorem Run.skipOf [AtMostOne l] {f : Unit → Parser β} (hne : ∀ c, P c → c.kind ≠ .eof)
    (hf : B.Run (fun _ => True) F n (fun _ => 0) (f ()) Q) :
    B.Run P F n l (Parser.advance >>= f) Q :=
  .advance hne (fun _ _ => trivial) (hf.mono (n.sub_le 1) AtMostOne.sub_le fun _ hb => hb)

theorem Run.skip [Cursor.Before P] [AtMostOne l] {f : Unit → Parser β}
    (hf : B.Run (fun _ => True) F n (fun _ => 0) (f ()) Q) :
    B.Run P F n l (Parser.advance >>= f) Q :=
  .skipOf Cursor.Before.ne_eof hf

theorem Run.accept {k : TokenKind} [hk : k.NotEnd] {f : Bool → Parser β}
    (ht : B.Run (fun _ => True) F (n - 1) (fun b => l b - 1) (f true) Q)
    (hf : B.Run (fun c => P c ∧ c.kind ≠ k) F n l (f false) Q) :
    B.Run P F n l (accept k >>= f) Q := by
  intro c hc hat
  by_cases hkind : c.kind = k
  · obtain ⟨t, hmoves⟩ := Cursor.moves_advance (hkind ▸ hk.ne_eof)
    have heq : (Parser.accept k >>= f) c = f true c.advance := by
      have haccept : Parser.accept k c = .ok true c.advance := by
        change (if c.kind == k then Parser.advance >>= fun _ => _ else _ : Parser Bool) c = _
        rw [beq_iff_eq.mpr hkind]
        rfl
      change EStateM.bind _ _ _ = _
      rw [EStateM.bind, haccept]
    rw [heq]
    exact (ht c.advance trivial (hat.reads hmoves.toReads)).after hmoves (Nat.le_refl _)
      fun _ _ => List.sublist_append_left _ _
  · have heq : (Parser.accept k >>= f) c = f false c := by
      have haccept : Parser.accept k c = .ok false c := by
        change (if c.kind == k then Parser.advance >>= fun _ => _ else _ : Parser Bool) c = _
        rw [beq_eq_false_iff_ne.mpr hkind]
        rfl
      change EStateM.bind _ _ _ = _
      rw [EStateM.bind, haccept]
    rw [heq]
    exact hf c ⟨hc, hkind⟩ hat

/-- Two ways, of which one has read the mark `k`. -/
theorem Run.ifAccept [AtMostOne l] {k : TokenKind} [k.NotEnd] {q' : Parser β}
    (ht : B.Run (fun _ => True) F n (fun _ => 0) q Q)
    (hf : B.Run (fun c => P c ∧ c.kind ≠ k) F n l q' Q) :
    B.Run P F n l (Parser.accept k >>= fun b => if b = true then q else q') Q :=
  .accept (ht.mono (n.sub_le 1) AtMostOne.sub_le fun _ hb => hb) hf

theorem Run.acceptAny {k : TokenKind} [k.NotEnd] {f : Bool → Parser β}
    (hf : ∀ b, B.Run (fun _ => True) F n l (f b) Q) : B.Run P F n l (Parser.accept k >>= f) Q :=
  .accept ((hf true).mono (n.sub_le 1) (fun b => (l b).sub_le 1) fun _ hb => hb)
    ((hf false).of_imp fun _ _ => trivial)

theorem Run.only {l : Unit → Nat} [AtMostOne l] (hne : ∀ c, P c → c.kind ≠ .eof) :
    B.Run P F n l Parser.advance fun _ => True := by
  rw [← bind_pure (Parser.advance)]
  exact .skipOf hne (.pure (by simp) trivial)

theorem takes_expect {k : TokenKind} [hk : k.NotEnd] :
    B.Takes n (expect k) fun _ => True := by
  intro s
  refine .peek fun found _ => ?_
  split
  · rename_i h
    refine .only fun c hc => ?_
    rw [hc.2, beq_iff_eq.mp h]
    exact hk.ne_eof
  · exact .fail nofun

theorem Run.expect [AtMostOne l] {k : TokenKind} [k.NotEnd] {f : Unit → Parser β}
    (hf : B.Run (fun _ => True) F n (fun _ => 0) (f ()) Q) :
    B.Run P F n l (Parser.expect k >>= f) Q :=
  takes_expect.bind fun _ _ => .frame (F := F.and ()) hf (by simp)

theorem Run.expectFirst [AtMostOne l] {k : TokenKind} [k.NotEnd] {f : Unit → Parser β}
    (hf : B.Run (fun _ => True) F n (fun _ => 0) (f ()) Q) :
    B.Run P F (n + 1) l (Parser.expect k >>= f) Q :=
  takes_expect.first fun _ _ => .frame (F := F.and ()) hf (by simp)

theorem At.le_start (h : B.At s c) (hsorted : B.sorted) : s ≤ c.start := by
  obtain ⟨c₀, read, hc₀, rfl, hreads⟩ := h
  cases read with
  | nil => exact Nat.le_of_eq (by simp [Cursor.start, hreads.rest, hreads.prev])
  | cons t ts => exact ((B.inOrder hsorted hc₀).start_le hreads (List.cons_ne_nil _ _)).2

/-- The last token of a value stands in the part. -/
theorem Run.lastSpan [AtMostOne l] [LagsLike α β] {f : α → Span → Parser β}
    (hp : B.Run P ⟨F.start, []⟩ n (fun _ => 1) p R)
    (hf : ∀ a sp, R a → B.span sp → (B.sorted → F.start ≤ sp.start) →
      B.Run (fun _ => True) (F.and a) n (fun _ => 0) (f a sp) Q) :
    B.Run P F n l (p >>= fun a => Parser.prevSpan >>= f a) Q := by
  intro c hP hat
  have hend := hp c hP hat
  change B.Ends F.keys n _ Q c (EStateM.bind p _ c)
  unfold EStateM.bind
  cases hrun : p c with
  | error e c' =>
    rw [hrun] at hend
    exact hend
  | ok a c' =>
    rw [hrun] at hend
    obtain ⟨⟨read, hmoves, hlen, hkeys⟩, ha⟩ := hend
    have hat' := hat.reads hmoves.toReads
    refine ((hf a c'.prevSpan ha (B.prevSpan hat'.holds) (fun hsorted => ?_)).mono (n.sub_le 1)
      AtMostOne.sub_le (fun _ hb => hb) c' trivial hat').after hmoves hlen fun hsorted b => ?_
    · obtain ⟨c₀, read₀, hc₀, hs, hreads⟩ := hat
      rw [← hs]
      refine ((B.inOrder hsorted hc₀).start_le (hreads.trans hmoves.toReads) ?_).1
      exact List.append_ne_nil_of_right_ne_nil _ (List.ne_nil_of_length_pos hlen)
    · exact ((hkeys hsorted).trans (startsOf_drop (AtMostOne.lag_le b))).append_left _

theorem run_expectIdent {cause : SyntaxCause} (h : cause ≠ .tooDeep) :
    B.Run P ⟨s, []⟩ n (fun _ => 1) (Parser.expectIdent cause)
      fun id => B.Name id ∧ (B.sorted → s ≤ id.span.start) := by
  refine .peek fun found hfound => ?_
  split
  · exact .lastSpan (.only Cursor.Before.ne_eof) fun _ sp _ hsp hle =>
      .pure (by simp) ⟨⟨hfound, hsp⟩, hle⟩
  · exact .fail h

theorem takes_expectIdent {cause : SyntaxCause} (h : cause ≠ .tooDeep) :
    B.Takes n (expectIdent cause) B.Name :=
  fun _ => (run_expectIdent h).mono (Nat.le_refl _) (fun _ => Nat.le_refl _) fun _ hid => hid.1

theorem Run.expectIdent [AtMostOne l] {cause : SyntaxCause} {f : Ident → Parser β}
    (hc : cause ≠ .tooDeep)
    (hf : ∀ id, B.Name id → B.Run (fun _ => True) F n (fun _ => 0) (f id) Q) :
    B.Run P F n l (Parser.expectIdent cause >>= f) Q :=
  (takes_expectIdent hc).bind fun id hid => .frame (F := F.and id) (hf id hid) (by simp)

theorem passes_expectTerminator : B.Passes n expectTerminator fun _ => True := by
  intro s
  refine .peek fun found _ => ?_
  split
  · exact .only Cursor.Before.ne_eof
  · exact .pure (by simp) trivial
  · exact .pure (by simp) trivial
  · exact .pure (by simp) trivial
  · exact .fail nofun

/-- The semicolons that come next are read, and no others come behind them. -/
theorem moves_skipSemis (c : Cursor) : ∃ read, c.Moves read (skipSemis.go c c.rest) ∧
    (skipSemis.go c c.rest).kind ≠ .punct .semi := by
  have hgo : ∀ ts c, c.rest = ts → ∃ read, c.Moves read (skipSemis.go c ts) ∧
      (skipSemis.go c ts).kind ≠ .punct .semi := by
    intro ts
    induction ts with
    | nil => exact fun c hc => ⟨[], .refl c, by simp [skipSemis.go, Cursor.kind, hc]⟩
    | cons t ts ih =>
      intro c hc
      rw [skipSemis.go]
      split
      · rename_i hsemi
        have hkind : c.kind = .punct .semi := by simpa [Cursor.kind, hc] using hsemi
        obtain ⟨t, hmoves⟩ := Cursor.moves_advance (c := c) (by rw [hkind]; nofun)
        obtain ⟨read, hmoves', hne⟩ := ih c.advance (by simp [Cursor.advance, hc])
        exact ⟨_, hmoves.trans hmoves', hne⟩
      · rename_i hsemi
        exact ⟨[], .refl c, by simpa [Cursor.kind, hc] using hsemi⟩
  exact hgo c.rest c rfl

theorem Run.skipSemis {f : Unit → Parser β}
    (hf : B.Run (fun c => c.kind ≠ .punct .semi) F n l (f ()) Q) :
    B.Run P F n l (skipSemis >>= f) Q := by
  intro c _ hat
  obtain ⟨read, hmoves, hne⟩ := moves_skipSemis c
  exact (hf _ hne (hat.reads hmoves.toReads)).after hmoves (Nat.zero_le _)
    fun _ _ => List.sublist_append_left _ _

theorem Run.withBodyBrace {flag : Bool} (h : B.Run (fun _ => True) F n l q Q) :
    B.Run P F n l (withBodyBrace flag q) Q := by
  intro c _ hat
  have hend := h { c with bodyBrace := flag } trivial (hat.reads (.of_eq rfl rfl))
  unfold Parser.withBodyBrace
  cases hrun : q { c with bodyBrace := flag } with
  | ok b c' =>
    rw [hrun] at hend
    obtain ⟨⟨read, hmoves, hread⟩, hb⟩ := hend
    exact ⟨⟨read, ⟨⟨hmoves.rest, hmoves.prev⟩, rfl, hmoves.inside⟩, hread⟩, hb⟩
  | error e c' =>
    rw [hrun] at hend
    obtain ⟨⟨read, hmoves⟩, hrest⟩ := hend
    exact ⟨⟨read, ⟨hmoves.rest, hmoves.prev⟩, rfl, hmoves.inside⟩, hrest⟩

theorem Takes.withBodyBrace {flag : Bool} (h : B.Takes n q Q) :
    B.Takes n (withBodyBrace flag q) Q :=
  fun s => (h s).withBodyBrace

theorem Passes.withBodyBrace {flag : Bool} (h : B.Passes n q Q) :
    B.Passes n (withBodyBrace flag q) Q :=
  fun s => (h s).withBodyBrace

section Opens

variable {S : Nat → α → Prop}

/-- What is known of a value that starts at the next token of a cursor. -/
theorem Opens.here (h : B.Opens n p S) (c : Cursor) :
    B.Run (fun c' => c' = c) F n (fun _ => 1) p fun a => S c.start a ∧ c.kind ≠ .punct .semi := by
  rintro c rfl hat
  exact ((h c.start c.kind).frame (F := ⟨c.start, F.keys⟩) (List.nil_sublist _)) c ⟨rfl, rfl⟩
    (at_start hat.holds)

theorem Opens.takes (h : B.Opens n p S) (hR : ∀ s a, S s a → R a) : B.Takes n p R :=
  fun _ c _ => (h.here c).mono (Nat.le_refl _) (fun _ => Nat.le_refl _)
    (fun a ha => hR _ a ha.1) c rfl

theorem Opens.pred (h : B.Opens (n + 1) p S) : B.Opens n p S :=
  fun s k => (h s k).mono n.le_succ (fun _ => Nat.le_refl _) fun _ ha => ha

/-- A part follows the start of another one. -/
theorem Opens.bind [AtMostOne l] [LagsLike α β] (hp : B.Opens n p S)
    (hf : ∀ a s, S s a → (B.sorted → F.start ≤ s) →
      B.Run (fun _ => True) (F.and a) n (fun _ => 0) (f a) Q) : B.Run P F n l (p >>= f) Q :=
  fun c _ hat => (hp.here c).take (fun a ha => hf a c.start ha.1 hat.le_start) c rfl hat

/-- A statement starts with a value in which no statement starts at the first token. -/
theorem Opens.opening [AtMostOne l] [hlag : Lagging α] [hprompt : Prompt β] (hp : B.Opens n p S)
    (hf : ∀ a s, S s a →
      B.Run (fun _ => True) ⟨s, F.keys ++ s :: keys a⟩ (n - 1) (fun _ => 0) (f a) Q) :
    B.Run P F n l (p >>= f) Q := by
  intro c hP hat
  have hend := hp.here c (F := ⟨c.start, []⟩) c rfl (at_start hat.holds)
  change B.Ends F.keys n l Q c (EStateM.bind p f c)
  unfold EStateM.bind
  cases hrun : p c with
  | error e c' =>
    rw [hrun] at hend
    exact hend
  | ok a c' =>
    rw [hrun] at hend
    obtain ⟨⟨read, hmoves, hlen, hkeys⟩, ha, hsemi⟩ := hend
    refine ((hf a c.start ha).mono (Nat.le_refl _) AtMostOne.sub_le (fun _ hb => hb) c' trivial
      ((at_start hat.holds).reads hmoves.toReads)).after hmoves hlen fun hsorted b => ?_
    obtain ⟨t, ts, rfl⟩ := List.exists_cons_of_length_pos hlen
    have hrest : c.rest = t :: (ts ++ c'.rest) := hmoves.rest
    simp only [Cursor.kind, hrest] at hsemi
    have hkeys := hkeys hsorted
    simpa [hprompt.eq_false, hlag.eq_true, startsOf, hsemi, Cursor.start, hrest] using hkeys

/-- Reads the token at which a part starts. -/
theorem Run.nextSpan [AtMostOne l] {f : Span → Parser β}
    (hP : ∀ c, P c → c.kind ≠ .eof ∧ c.start = s)
    (hf : ∀ sp, B.SpanAt s sp → B.Run (fun _ => True) F n (fun _ => 0) (f sp) Q) :
    B.Run P F (n + 1) l (Parser.advance >>= fun _ => Parser.prevSpan >>= f) Q := by
  refine .advance (W := fun c => ∃ stop, c.prevSpan = .range s stop) (fun c hc => (hP c hc).1)
    (fun c hc => (hP c hc).2 ▸ c.prevSpan_advance (hP c hc).1) fun c hc hat => ?_
  exact (hf c.prevSpan ⟨B.prevSpan hat.holds, fun _ => hc⟩).mono (Nat.le_refl _) AtMostOne.sub_le
    (fun _ hb => hb) c trivial hat

end Opens

/-- A part that starts here and ends behind the last token read. -/
theorem Run.ranged {g : α → Nat → Nat → β} (hp : B.Takes n p R)
    (hg : ∀ a start stop, R a → Q (g a start stop))
    (hkeys : ∀ a start stop, (keys (g a start stop)).Sublist (keys a)) [LagsLike α β] :
    B.Run P F n (fun _ => 1) (do
      let start ← Parser.position
      let a ← p
      return g a start (← Parser.prevSpan).stop) Q := by
  intro c _ hat
  have hend := hp c.start c trivial (at_start hat.holds)
  change B.Ends F.keys n _ Q c (EStateM.bind p _ c)
  unfold EStateM.bind
  cases hrun : p c with
  | error e c' =>
    rw [hrun] at hend
    exact hend
  | ok a c' =>
    rw [hrun] at hend
    obtain ⟨⟨read, hmoves, hlen, hread⟩, ha⟩ := hend
    refine ⟨⟨read, hmoves, hlen, fun hsorted => ?_⟩, hg a _ _ ha⟩
    refine ((hkeys a _ _).trans (hread hsorted)).trans
      ((List.nil_sublist _).append (startsOf_drop ?_))
    exact AtMostOne.lag_le (l := fun _ => 1) (g a c.start c'.prevSpan.stop)

/-! ### Lists and repetitions -/

section Lists

variable {close sep : TokenKind} [sep.NotEnd]

/-- Every round reads its separator, so that the rounds are as many as the tokens to come at
most. -/
theorem Passes.following (hp : B.Passes n p R) (hm : n ≤ m) :
    B.Passes n (following sep p m) fun as => ∀ a ∈ as, R a := by
  induction m generalizing n with
  | zero =>
    obtain rfl := Nat.le_zero.mp hm
    exact fun s => .tooDeep
  | succ m ih =>
    intro s
    have hrest := ih (hp.le (n.sub_le 1)) (Nat.sub_le_of_le_add hm)
    refine .accept ?_ (.pure (by simp) (List.forall_mem_nil _))
    exact (hp.le (n.sub_le 1)).bind fun a ha => hrest.bind fun as has =>
      .pure (by simp) (List.forall_mem_cons.mpr ⟨ha, has⟩)

theorem Takes.separated (hp : B.Takes n p R) (hm : n ≤ m) :
    B.Takes n (separated m sep p) fun as => as ≠ [] ∧ ∀ a ∈ as, R a := fun _ =>
  hp.bind fun _ ha => (hp.passes.following hm).bind fun _ has =>
    .pure (by simp) ⟨List.cons_ne_nil _ _, List.forall_mem_cons.mpr ⟨ha, has⟩⟩

/-- Behind an item, one round less remains. -/
private theorem Takes.round (hp : B.Takes n p R)
    (hf : ∀ a, R a → B.Run (fun _ => True) (F.and a) (n - 1) (fun _ => 0) (f a) Q) :
    B.Run P F n (fun _ => 0) (p >>= f) Q :=
  Run.bind (k := fun _ => 1) hp.run (by simp) hf

theorem Takes.commaList (hp : B.Takes n p R) (hm : n ≤ m) :
    B.Passes n (commaList close p m) fun as => ∀ a ∈ as, R a := by
  induction m generalizing n with
  | zero =>
    obtain rfl := Nat.le_zero.mp hm
    exact fun s => .tooDeep
  | succ m ih =>
    intro s
    have hrest := ih (hp.le (n.sub_le 1)) (Nat.sub_le_of_le_add hm)
    refine .check fun b => .check fun b' => ?_
    split
    · exact .pure (by simp) (List.forall_mem_nil _)
    · refine hp.round fun a ha => .ifAccept ?_ (.pure (by simp) (List.forall_mem_singleton.mpr ha))
      exact hrest.bind fun as has => .pure (by simp) (List.forall_mem_cons.mpr ⟨ha, has⟩)

theorem Takes.items {item : List α → Parser α} (hitem : ∀ before, B.Takes n (item before) R)
    (hm : n ≤ m) {before : List α} (hbefore : ∀ a ∈ before, R a) :
    B.From (keys before.reverse) n (items close item m before) fun as => ∀ a ∈ as, R a := by
  induction m generalizing n before with
  | zero =>
    obtain rfl := Nat.le_zero.mp hm
    exact fun s => .tooDeep
  | succ m ih =>
    intro s
    have hrest : ∀ {before}, (∀ a ∈ before, R a) → B.From (keys before.reverse) (n - 1)
        (Parser.items close item m before) fun as => ∀ a ∈ as, R a :=
      ih (fun b => (hitem b).le (n.sub_le 1)) (Nat.sub_le_of_le_add hm)
    refine .check fun b => .check fun b' => ?_
    split
    · exact .pure (by simp) fun a ha => hbefore a (List.mem_reverse.mp ha)
    · refine .accept (hrest hbefore s) ?_
      exact (hitem before).round fun a ha =>
        (hrest (List.forall_mem_cons.mpr ⟨ha, hbefore⟩)).run (by simp)

theorem Takes.lines (hp : B.Takes n p R) (hm : n ≤ m) :
    B.Passes n (lines m close p) fun as => ∀ a ∈ as, R a := by
  refine Takes.items (fun _ s => hp.bind fun a ha => .check fun b => ?_) hm (List.forall_mem_nil _)
  cases b
  · exact Takes.bind takes_expect fun _ _ => .pure (by simp) ha
  · exact .pure (by simp) ha

/-- What each step keeps holds in the end; a step that gives a value reads a token. -/
theorem Run.iterate {I : α → Cursor → Prop} {step : α → Parser (Option α)}
    (hstep : ∀ a, R a →
      B.Run (I a) ⟨s, keys a⟩ n (fun o => o.isSome.toNat) (step a) fun o => ∀ b ∈ o, R b)
    (hI : ∀ a b c c', I a c → step a c = .ok (some b) c' → I b c') (hm : n ≤ m) {a : α} (ha : R a)
    (hkeys : (keys a).Sublist K) : B.Run (I a) ⟨s, K⟩ n (fun _ => 0) (iterate step m a) R := by
  induction m generalizing n a K with
  | zero =>
    obtain rfl := Nat.le_zero.mp hm
    exact .tooDeep
  | succ m ih =>
    intro c hc hat
    have hend := hstep a ha c hc hat
    change B.Ends K n _ R c (EStateM.bind (step a) _ c)
    unfold EStateM.bind
    cases hrun : step a c with
    | error e c' =>
      rw [hrun] at hend
      exact hend
    | ok o c' =>
      rw [hrun] at hend
      obtain ⟨⟨read, hmoves, hlen, hread⟩, ho⟩ := hend
      cases o with
      | none =>
        exact ⟨⟨read, hmoves, Nat.zero_le _, fun _ => hkeys.trans (List.sublist_append_left _ _)⟩,
          ha⟩
      | some b =>
        have hless : ∀ a, R a → B.Run (I a) ⟨s, keys a⟩ (n - 1) (fun o => o.isSome.toNat) (step a)
            fun o => ∀ b ∈ o, R b :=
          fun a ha => (hstep a ha).mono (n.sub_le 1) (fun _ => Nat.le_refl _) fun _ h => h
        have hnext := ih hless (Nat.sub_le_of_le_add hm) (ho b rfl) (List.Sublist.refl _) c'
          (hI a b c c' hc hrun) (hat.reads hmoves.toReads)
        refine hnext.after hmoves hlen fun hsorted _ => ?_
        rw [Nat.zero_mul]
        exact (keys_option.2 b ▸ hread hsorted).trans
          (hkeys.append (startsOf_drop (Nat.zero_le _)))

end Lists

end Basis

end ServiceSplit
