import ServiceSplit.Proofs.Token.Tiling

/-!
# Tokenizations

The tokens and comments of a source text, together with its white space, tile the text. The only
tokens that are not written in the text are the end of the text and the semicolons that are inserted
at line ends. There is one between two written tokens if the first one ends a statement and a
newline follows it, be it inside a block comment, and none otherwise; the end of the text counts as
a newline.
-/

namespace ServiceSplit

/-- Whether a token has bytes of its own. -/
def Token.isWritten (t : Token) : Bool :=
  t.start < t.stop

/-- A semicolon of no bytes. -/
def Token.IsInserted (t : Token) : Prop :=
  t.kind = .punct .semi ∧ t.start = t.stop

theorem Token.IsInserted.isWritten {t : Token} (h : t.IsInserted) : t.isWritten = false := by
  rw [Token.isWritten, h.2]
  simp

/-! ### Lexemes at their places -/

/-- Lexemes with the bytes at which they start; the first one starts at `offset`. -/
def placed (offset : Nat) : List Lexeme → List (Nat × Lexeme)
  | [] => []
  | l :: ls => (offset, l) :: placed (offset + Text.byteSize l.text) ls

theorem placed_append (offset : Nat) (ls ms : List Lexeme) :
    placed offset (ls ++ ms) =
      placed offset ls ++ placed (offset + Text.byteSize (ls.flatMap Lexeme.text)) ms := by
  induction ls generalizing offset with
  | nil => rfl
  | cons l ls ih =>
    rw [List.cons_append, placed, placed, ih, List.flatMap_cons, Text.byteSize_append,
      Nat.add_assoc, List.cons_append]

/-- A lexeme stands at its place in the text. -/
theorem between_of_mem_placed {n : Nat} {l : Lexeme} {ls : List Lexeme} (front : List Char)
    (h : (n, l) ∈ placed (Text.byteSize front) ls) :
    Text.Between (front ++ ls.flatMap Lexeme.text) n (n + Text.byteSize l.text) l.text := by
  induction ls generalizing front with
  | nil => cases h
  | cons m ms ih =>
    rw [List.flatMap_cons, ← List.append_assoc]
    rcases List.mem_cons.mp h with heq | h
    · cases heq
      exact ⟨front, _, rfl, rfl, rfl⟩
    · exact ih _ (by rwa [Text.byteSize_append])

/-- The token that a lexeme is at a place. -/
def tokenAt? : Nat × Lexeme → Option Token
  | (n, .token kind) => some ⟨kind, n, n + Text.byteSize kind.text.toList⟩
  | _ => none

/-- The comment that a lexeme is at a place. -/
def commentAt? : Nat × Lexeme → Option Comment
  | (n, .comment text) => some ⟨String.ofList (Text.trimEnd text), n, n + Text.byteSize text⟩
  | _ => none

/-- The error that a lexeme is at a place. -/
def errorAt? : Nat × Lexeme → Option SyntaxError
  | (n, .fault cause text) => some ⟨cause, .range n (n + Text.byteSize text)⟩
  | _ => none

/-- Whether a lexeme is a token, a comment or white space. -/
def Lexeme.isProper : Lexeme → Bool
  | .fault .. => false
  | .newline | .blank _ | .comment _ | .token _ => true

/-- The lexemes `tiles` tile a text, and the tokens that are written and the comments are those
among them. -/
structure Tiles (source : List Char) (tokens : List Token) (comments : List Comment)
    (tiles : List Lexeme) : Prop where
  text : tiles.flatMap Lexeme.text = source
  tokens : tokens.filter Token.isWritten = (placed 0 tiles).filterMap tokenAt?
  comments : comments = (placed 0 tiles).filterMap commentAt?
  space : ∀ tile ∈ tiles, (∃ kind, tile = .token kind) ∨ (∃ text, tile = .comment text) ∨
    ∀ c ∈ tile.text, Text.isBlank c = true

/-! ### Semicolons between tokens -/

/-- The tokens `semis` are the semicolons inserted behind the token `a` up to the byte `stop`: there
is one if the token ends a statement and a newline stands there. -/
def Gap (text : List Char) (a : Token) (stop : Nat) (semis : List Token) : Prop :=
  ∃ part, Text.Between text a.stop stop part ∧ (∀ t ∈ semis, t.IsInserted) ∧
    semis.length = if a.kind.endsStatement = true ∧ '\n' ∈ part then 1 else 0

/-- Tokens up to a written one, the last one first, with the semicolons between them. -/
inductive Spaced (text : List Char) : List Token → Prop
  | first {a : Token} (ha : a.isWritten = true) : Spaced text [a]
  | next {a b : Token} {semis ts : List Token} (h : Spaced text (a :: ts))
      (hgap : Gap text a b.start semis) (hb : b.isWritten = true) :
      Spaced text (b :: (semis ++ a :: ts))

/-- Tokens of a text, the last one first, with the semicolons between them and up to the end of the
text. -/
def SpacedUpTo (text : List Char) (ts : List Token) : Prop :=
  ts = [] ∨ ∃ semis a rest, ts = semis ++ a :: rest ∧ Spaced text (a :: rest) ∧
    Gap text a (Text.byteSize text) semis

/-- Tokens at the end of a line, the last one first. -/
def lineEnded (offset : Nat) (ts : List Token) : List Token :=
  if ts.head?.any (·.kind.endsStatement) then ⟨.punct .semi, offset, offset⟩ :: ts else ts

namespace Spaced

variable {text more : List Char} {a : Token} {ts semis : List Token}

theorem gap_append {stop : Nat} (h : Gap text a stop semis) : Gap (text ++ more) a stop semis := by
  obtain ⟨part, hpart, hsemis⟩ := h
  exact ⟨part, hpart.append more, hsemis⟩

theorem append (h : Spaced text ts) : Spaced (text ++ more) ts := by
  induction h with
  | first ha => exact .first ha
  | next _ hgap hb ih => exact ih.next (gap_append hgap) hb

theorem isWritten_head (h : Spaced text (a :: ts)) : a.isWritten = true := by
  cases h with
  | first ha => exact ha
  | next _ _ hb => exact hb

theorem exists_first (h : Spaced text ts) : ∃ us t, ts = us ++ [t] ∧ t.isWritten = true := by
  induction h with
  | first ha => exact ⟨[], _, rfl, ha⟩
  | @next a b semis ts _ _ _ ih =>
    obtain ⟨us, t, hts, ht⟩ := ih
    exact ⟨b :: (semis ++ us), t, by rw [hts]; simp, ht⟩

/-- Tokens without bytes in front of a written one can be told from it. -/
theorem exists_of_append_eq {us vs ws : List Token} {b c : Token}
    (heq : us ++ b :: vs = ts ++ c :: ws) (hus : ∀ t ∈ us, t.isWritten = false)
    (hc : c.isWritten = true) : ∃ xs, ts = us ++ xs ∧ b :: vs = xs ++ c :: ws := by
  rcases List.append_eq_append_iff.mp heq with ⟨xs, hts, hxs⟩ | ⟨xs, hus', hxs⟩
  · exact ⟨xs, hts, hxs⟩
  · cases xs with
    | nil => exact ⟨[], by simpa using hus'.symm, by simpa using hxs.symm⟩
    | cons x xs =>
      obtain rfl : c = x := by simpa using (List.cons.inj hxs).1
      have := hus c (hus' ▸ by simp)
      simp [hc] at this

/-- The first token with bytes can be told from those in front of it. -/
theorem append_inj {us vs ws : List Token} {b c : Token} (heq : us ++ b :: vs = ts ++ c :: ws)
    (hus : ∀ t ∈ us, t.isWritten = false) (hb : b.isWritten = true)
    (hts : ∀ t ∈ ts, t.isWritten = false) (hc : c.isWritten = true) : us = ts ∧ b = c ∧
    vs = ws := by
  obtain ⟨xs, rfl, hxs⟩ := exists_of_append_eq heq hus hc
  cases xs with
  | nil => simpa using hxs
  | cons x xs =>
    obtain rfl : b = x := (List.cons.inj hxs).1
    have hfalse := hts b (by simp)
    simp [hb] at hfalse

theorem gap_isInserted {stop : Nat} (h : Gap text a stop semis) :
    ∀ t ∈ semis, t.isWritten = false :=
  fun t ht => (h.choose_spec.2.1 t ht).isWritten

/-- What stands between two tokens that are written one after the other. -/
theorem gap {us vs ws : List Token} {b c : Token} (h : Spaced text ts)
    (heq : ts = us ++ c :: (vs ++ b :: ws)) (hb : b.isWritten = true) (hc : c.isWritten = true)
    (hvs : ∀ t ∈ vs, t.isWritten = false) : Gap text b c.start vs := by
  induction h generalizing us with
  | first ha =>
    have := congrArg List.length heq
    simp at this
    omega
  | @next a d semis ts hts hgap hd ih =>
    cases us with
    | nil =>
      obtain ⟨rfl, htail⟩ := List.cons.inj heq
      obtain ⟨rfl, rfl, -⟩ := append_inj htail (gap_isInserted hgap) hts.isWritten_head hvs hb
      exact hgap
    | cons u us =>
      obtain ⟨-, htail⟩ := List.cons.inj heq
      obtain ⟨xs, -, hxs⟩ := exists_of_append_eq htail (gap_isInserted hgap) hc
      exact ih hxs

end Spaced

namespace SpacedUpTo

variable {text more : List Char} {ts : List Token}

/-- Text without a newline changes nothing. -/
theorem pass (h : SpacedUpTo text ts) (hmore : '\n' ∉ more) : SpacedUpTo (text ++ more) ts := by
  rcases h with rfl | ⟨semis, a, rest, rfl, hts, part, hpart, hsemis, hlen⟩
  · exact .inl rfl
  · refine .inr ⟨semis, a, rest, rfl, hts.append, part ++ more, hpart.extend more, hsemis, ?_⟩
    simpa [hmore] using hlen

/-- A token that is written follows the semicolons in front of it. -/
theorem push (h : SpacedUpTo text ts) {b : Token} (hb : b.isWritten = true)
    (hstart : b.start = Text.byteSize text) (hstop : b.stop = Text.byteSize (text ++ more)) :
    SpacedUpTo (text ++ more) (b :: ts) := by
  have hgap : Gap (text ++ more) b (Text.byteSize (text ++ more)) [] :=
    ⟨[], by rw [hstop]; exact Text.between_end _, by simp, by simp⟩
  refine .inr ⟨[], b, ts, rfl, ?_, hgap⟩
  rcases h with rfl | ⟨semis, a, rest, rfl, hts, hsemis⟩
  · exact .first hb
  · exact hts.append.next (Spaced.gap_append (hstart ▸ hsemis)) hb

/-- At the end of a line there is a semicolon behind a token that ends a statement. -/
theorem exists_lineEnded (h : SpacedUpTo text ts) (offset : Nat) :
    lineEnded offset ts = [] ∨ ∃ semis a rest, lineEnded offset ts = semis ++ a :: rest ∧
      Spaced text (a :: rest) ∧ (∀ t ∈ semis, t.IsInserted) ∧
      semis.length = (if a.kind.endsStatement = true then 1 else 0) ∧
      ∃ part, Text.Between text a.stop (Text.byteSize text) part := by
  rcases h with rfl | ⟨semis, a, rest, rfl, hts, part, hpart, hsemis, hlen⟩
  · exact .inl rfl
  · cases semis with
    | nil =>
      by_cases hends : a.kind.endsStatement = true
      · exact .inr ⟨[⟨.punct .semi, offset, offset⟩], a, rest, by simp [lineEnded, hends], hts,
          by simp [Token.IsInserted], by simp [hends], part, hpart⟩
      · exact .inr ⟨[], a, rest, by simp [lineEnded, hends], hts, hsemis, by simp [hends],
          part, hpart⟩
    | cons t semis =>
      have hends : a.kind.endsStatement = true ∧ '\n' ∈ part := by
        by_contra hstays
        simp [hstays] at hlen
      have ht : t.kind = .punct .semi := (hsemis t (by simp)).1
      refine .inr ⟨t :: semis, a, rest, by simp [lineEnded, ht, TokenKind.endsStatement], hts,
        hsemis, ?_, part, hpart⟩
      rw [hlen, if_pos hends, if_pos hends.1]

/-- Text with a newline ends the line. -/
theorem line (h : SpacedUpTo text ts) (hmore : '\n' ∈ more) (offset : Nat) :
    SpacedUpTo (text ++ more) (lineEnded offset ts) := by
  rcases h.exists_lineEnded offset with hnil | ⟨semis, a, rest, heq, hts, hsemis, hlen, part, hpart⟩
  · exact .inl hnil
  · refine .inr ⟨semis, a, rest, heq, hts.append, part ++ more, hpart.extend more, hsemis, ?_⟩
    simp [hlen, hmore]

end SpacedUpTo

/-! ### Reading lexemes -/

/-- A token that is written in a text, or inserted into it. -/
def Token.StandsIn (text : List Char) (t : Token) : Prop :=
  ∃ part, Text.Between text t.start t.stop part ∧
    (t.isWritten = true ∧ part = t.kind.text.toList ∧ t.kind ≠ .eof ∨ t.IsInserted)

/-- A comment of a text. -/
def Comment.StandsIn (text : List Char) (c : Comment) : Prop :=
  ∃ part, Text.Between text c.start c.stop part ∧ c.text = String.ofList (Text.trimEnd part)

/-- The tokens of some lexemes, the last one first. -/
structure TokensRead (ls : List Lexeme) (ts : List Token) : Prop where
  written : ts.reverse.filter Token.isWritten = (placed 0 ls).filterMap tokenAt?
  stand : ∀ t ∈ ts, t.StandsIn (ls.flatMap Lexeme.text)
  follow : ts.Pairwise fun t u => u.stop ≤ t.start
  spaced : SpacedUpTo (ls.flatMap Lexeme.text) ts

/-- The comments of some lexemes, the last one first. -/
structure CommentsRead (ls : List Lexeme) (cs : List Comment) : Prop where
  written : cs.reverse = (placed 0 ls).filterMap commentAt?
  stand : ∀ c ∈ cs, c.StandsIn (ls.flatMap Lexeme.text)
  follow : cs.Pairwise fun c d => d.stop ≤ c.start

/-- What has been read is what some lexemes are. -/
structure Scan.Reads (s : Scan) (ls : List Lexeme) : Prop where
  offset : s.offset = Text.byteSize (ls.flatMap Lexeme.text)
  tokens : TokensRead ls s.tokens
  comments : CommentsRead ls s.comments
  apart : ∀ t ∈ s.tokens, ∀ c ∈ s.comments, t.stop ≤ c.start ∨ c.stop ≤ t.start

section Lexemes

variable {ls : List Lexeme} {l : Lexeme}

theorem flatMap_text_concat (ls : List Lexeme) (l : Lexeme) :
    (ls ++ [l]).flatMap Lexeme.text = ls.flatMap Lexeme.text ++ l.text := by
  simp

theorem filterMap_placed_concat {α : Type} (f : Nat × Lexeme → Option α) (ls : List Lexeme)
    (l : Lexeme) :
    (placed 0 (ls ++ [l])).filterMap f = (placed 0 ls).filterMap f ++
      (f (Text.byteSize (ls.flatMap Lexeme.text), l)).toList := by
  rw [placed_append, List.filterMap_append, Nat.zero_add]
  simp [placed, List.filterMap_cons]
  split <;> simp_all

theorem Token.StandsIn.append {text more : List Char} {t : Token} (h : t.StandsIn text) :
    t.StandsIn (text ++ more) := by
  obtain ⟨part, hpart, hkind⟩ := h
  exact ⟨part, hpart.append more, hkind⟩

theorem Comment.StandsIn.append {text more : List Char} {c : Comment} (h : c.StandsIn text) :
    c.StandsIn (text ++ more) := by
  obtain ⟨part, hpart, htext⟩ := h
  exact ⟨part, hpart.append more, htext⟩

theorem Token.StandsIn.stop_le {text : List Char} {t : Token} (h : t.StandsIn text) :
    t.stop ≤ Text.byteSize text :=
  h.choose_spec.1.stop_le

theorem Comment.StandsIn.stop_le {text : List Char} {c : Comment} (h : c.StandsIn text) :
    c.stop ≤ Text.byteSize text :=
  h.choose_spec.1.stop_le

namespace TokensRead

variable {ts : List Token}

theorem pass (h : TokensRead ls ts) (hl : ∀ n, tokenAt? (n, l) = none) (hline : '\n' ∉ l.text) :
    TokensRead (ls ++ [l]) ts where
  written := by rw [filterMap_placed_concat, hl, h.written, Option.toList_none, List.append_nil]
  stand t ht := flatMap_text_concat ls l ▸ (h.stand t ht).append
  follow := h.follow
  spaced := flatMap_text_concat ls l ▸ h.spaced.pass hline

/-- A semicolon is inserted where a lexeme with a newline starts or ends. -/
theorem line (h : TokensRead ls ts) (hl : ∀ n, tokenAt? (n, l) = none) (hline : '\n' ∈ l.text)
    {offset : Nat} (hle : Text.byteSize (ls.flatMap Lexeme.text) ≤ offset)
    (hoffset : Text.IsBoundary (ls.flatMap Lexeme.text ++ l.text) offset) :
    TokensRead (ls ++ [l]) (lineEnded offset ts) := by
  have hsemi : (⟨.punct .semi, offset, offset⟩ : Token).IsInserted := ⟨rfl, rfl⟩
  have hspaced := h.spaced.line hline offset
  rw [← flatMap_text_concat] at hspaced hoffset
  have hpass : ∀ t ∈ ts, t.StandsIn ((ls ++ [l]).flatMap Lexeme.text) :=
    fun t ht => flatMap_text_concat ls l ▸ (h.stand t ht).append
  have hwritten : ts.reverse.filter Token.isWritten = (placed 0 (ls ++ [l])).filterMap
    tokenAt? := by
    rw [filterMap_placed_concat, hl, h.written, Option.toList_none, List.append_nil]
  unfold lineEnded at hspaced ⊢
  split at hspaced
  · rename_i hends
    rw [if_pos hends]
    refine ⟨?_, List.forall_mem_cons.mpr ⟨?_, hpass⟩, List.pairwise_cons.mpr ⟨?_, h.follow⟩,
      hspaced⟩
    · simp [hsemi.isWritten, hwritten]
    · obtain ⟨front, back, htext, rfl⟩ := hoffset
      exact ⟨[], ⟨front, back, by simpa using htext, rfl, rfl⟩, .inr hsemi⟩
    · exact fun t ht => Nat.le_trans (h.stand t ht).stop_le hle
  · rename_i hends
    rw [if_neg hends]
    exact ⟨hwritten, hpass, h.follow, hspaced⟩

theorem push (h : TokensRead ls ts) {kind : TokenKind} (hkind : kind ≠ .eof)
    (hne : kind.text.toList ≠ []) :
    TokensRead (ls ++ [.token kind]) (⟨kind, Text.byteSize (ls.flatMap Lexeme.text),
      Text.byteSize (ls.flatMap Lexeme.text) + Text.byteSize kind.text.toList⟩ :: ts) := by
  have hpos := Nat.pos_of_ne_zero fun h => hne (Text.eq_nil_of_byteSize_eq_zero h)
  have hwritten : (⟨kind, Text.byteSize (ls.flatMap Lexeme.text),
      Text.byteSize (ls.flatMap Lexeme.text) + Text.byteSize kind.text.toList⟩ : Token).isWritten =
        true := by
    simp only [Token.isWritten, decide_eq_true_eq]
    omega
  refine ⟨?_, List.forall_mem_cons.mpr ⟨?_, fun t ht => ?_⟩, List.pairwise_cons.mpr ⟨?_, h.follow⟩,
    ?_⟩
  · rw [filterMap_placed_concat, List.reverse_cons, List.filter_append, h.written]
    simp [hwritten, tokenAt?]
  · refine ⟨kind.text.toList, ?_, .inl ⟨hwritten, rfl, hkind⟩⟩
    rw [flatMap_text_concat]
    exact ⟨_, [], by simp [Lexeme.text], rfl, rfl⟩
  · exact flatMap_text_concat ls (.token kind) ▸ (h.stand t ht).append
  · exact fun t ht => (h.stand t ht).stop_le
  · rw [flatMap_text_concat]
    exact h.spaced.push hwritten rfl (Text.byteSize_append _ _).symm

end TokensRead

namespace CommentsRead

variable {cs : List Comment}

theorem pass (h : CommentsRead ls cs) (hl : ∀ n, commentAt? (n, l) = none) :
    CommentsRead (ls ++ [l]) cs where
  written := by rw [filterMap_placed_concat, hl, h.written, Option.toList_none, List.append_nil]
  stand c hc := flatMap_text_concat ls l ▸ (h.stand c hc).append
  follow := h.follow

theorem push (h : CommentsRead ls cs) (text : List Char) :
    CommentsRead (ls ++ [.comment text]) (⟨String.ofList (Text.trimEnd text),
      Text.byteSize (ls.flatMap Lexeme.text),
      Text.byteSize (ls.flatMap Lexeme.text) + Text.byteSize text⟩ :: cs) := by
  refine ⟨?_, List.forall_mem_cons.mpr ⟨?_, fun c hc => ?_⟩, List.pairwise_cons.mpr ⟨?_, h.follow⟩⟩
  · rw [filterMap_placed_concat, List.reverse_cons, h.written]
    simp [commentAt?]
  · refine ⟨text, ?_, rfl⟩
    rw [flatMap_text_concat]
    exact ⟨_, [], by simp [Lexeme.text], rfl, rfl⟩
  · exact flatMap_text_concat ls (.comment text) ▸ (h.stand c hc).append
  · exact fun c hc => (h.stand c hc).stop_le

end CommentsRead

end Lexemes

theorem mem_lineEnded {offset : Nat} {ts : List Token} {t : Token} (h : t ∈ lineEnded offset ts) :
    t ∈ ts ∨ t = ⟨.punct .semi, offset, offset⟩ := by
  unfold lineEnded at h
  split at h
  · exact (List.mem_cons.mp h).symm
  · exact .inl h

namespace Scan

variable {s : Scan} {ls : List Lexeme} {l : Lexeme}

theorem endLine_eq (s : Scan) : s.endLine = { s with tokens := lineEnded s.offset s.tokens } := by
  obtain ⟨offset, tokens, comments, errors⟩ := s
  unfold endLine lineEnded
  cases tokens with
  | nil => rfl
  | cons t ts => by_cases hends : t.kind.endsStatement = true <;> simp [hends, push]

theorem add_offset (s : Scan) (l : Lexeme) :
    (s.add l).offset = s.offset + Text.byteSize l.text := by
  cases l with
  | comment text =>
    unfold add
    dsimp only
    rw [endLine_eq]
    split <;> rfl
  | _ => rfl

theorem add_errors (s : Scan) (l : Lexeme) :
    (s.add l).errors = (errorAt? (s.offset, l)).toList ++ s.errors := by
  unfold add
  rw [endLine_eq]
  cases l with
  | comment text =>
    dsimp only
    rw [endLine_eq]
    split <;> rfl
  | _ => rfl

/-- The errors that are found are the lexemes that are no tokens, at their places. -/
theorem foldl_add_errors (s : Scan) (ms : List Lexeme) :
    (ms.foldl Scan.add s).errors = ((placed s.offset ms).filterMap errorAt?).reverse ++
    s.errors := by
  induction ms generalizing s with
  | nil => rfl
  | cons l ms ih =>
    rw [List.foldl_cons, ih, add_offset, add_errors, placed]
    cases hl : errorAt? (s.offset, l) <;> simp [hl]

namespace Reads

theorem stop_le (h : s.Reads ls) {c : Comment} (hc : c ∈ s.comments) : c.stop ≤ s.offset :=
  h.offset ▸ (h.comments.stand c hc).stop_le

theorem tokens_stop_le (h : s.Reads ls) {t : Token} (ht : t ∈ s.tokens) : t.stop ≤ s.offset :=
  h.offset ▸ (h.tokens.stand t ht).stop_le

/-- A semicolon at the end of a line stands behind all comments. -/
theorem apart_lineEnded (h : s.Reads ls) {offset : Nat} (hle : s.offset ≤ offset) :
    ∀ t ∈ lineEnded offset s.tokens, ∀ c ∈ s.comments, t.stop ≤ c.start ∨ c.stop ≤ t.start := by
  intro t ht c hc
  rcases mem_lineEnded ht with ht | rfl
  · exact h.apart t ht c hc
  · exact .inr (Nat.le_trans (h.stop_le hc) hle)

/-- Reading one lexeme more. -/
theorem add (h : s.Reads ls) (hl : l.Regular) (hproper : l.isProper = true) (hne : l.text ≠ []) :
    (s.add l).Reads (ls ++ [l]) := by
  have hstop : s.offset + Text.byteSize l.text =
      Text.byteSize ((ls ++ [l]).flatMap Lexeme.text) := by
    rw [flatMap_text_concat, Text.byteSize_append, h.offset]
  cases l with
  | newline =>
    unfold Scan.add
    rw [endLine_eq]
    refine ⟨hstop, ?_, h.comments.pass fun _ => rfl, h.apart_lineEnded (Nat.le_refl _)⟩
    refine h.tokens.line (fun _ => rfl) (by simp [Lexeme.text]) (Nat.le_of_eq h.offset.symm) ?_
    exact ⟨_, _, rfl, h.offset.symm⟩
  | blank c =>
    refine ⟨hstop, h.tokens.pass (fun _ => rfl) ?_, h.comments.pass fun _ => rfl, h.apart⟩
    simpa [Lexeme.text] using hl.2.symm
  | comment text =>
    have hcomments := h.comments.push text
    rw [← h.offset] at hcomments
    have hstop' : s.offset + Text.byteSize text =
        Text.byteSize (ls.flatMap Lexeme.text ++ text) := by
      rw [Text.byteSize_append, h.offset]
    -- every token read so far stands in front of the comment
    have hfront : ∀ t ∈ s.tokens, ∀ c ∈ (⟨String.ofList (Text.trimEnd text), s.offset,
        s.offset + Text.byteSize text⟩ :: s.comments : List Comment),
          t.stop ≤ c.start ∨ c.stop ≤ t.start := by
      intro t ht c hc
      rcases List.mem_cons.mp hc with rfl | hc
      · exact .inl (h.tokens_stop_le ht)
      · exact h.apart t ht c hc
    unfold Scan.add
    dsimp only [Lexeme.text]
    rw [endLine_eq]
    split
    · rename_i hline
      rw [Bool.and_eq_true, List.contains_iff_mem] at hline
      refine ⟨hstop, ?_, hcomments, ?_⟩
      · refine h.tokens.line (l := .comment text) (fun _ => rfl) hline.2
          (h.offset ▸ Nat.le_add_right _ _) ?_
        exact ⟨_, [], (List.append_nil _).symm, hstop'.symm⟩
      · intro t ht c hc
        rcases mem_lineEnded ht with ht | rfl
        · exact hfront t ht c hc
        · rcases List.mem_cons.mp hc with rfl | hc
          · exact .inr (Nat.le_refl _)
          · exact .inr (Nat.le_trans (h.stop_le hc) (Nat.le_add_right _ _))
    · rename_i hline
      have hquiet : '\n' ∉ text := by
        intro hmem
        refine hline ?_
        rw [hl hmem, Bool.and_eq_true, List.contains_iff_mem]
        exact ⟨rfl, hmem⟩
      exact ⟨hstop, h.tokens.pass (fun _ => rfl) hquiet, hcomments, hfront⟩
  | token kind =>
    have htokens := h.tokens.push hl hne
    rw [← h.offset] at htokens
    refine ⟨hstop, htokens, h.comments.pass fun _ => rfl, ?_⟩
    intro t ht c hc
    rcases List.mem_cons.mp ht with rfl | ht
    · exact .inr (h.stop_le hc)
    · exact h.apart t ht c hc
  | fault cause text => cases hproper

theorem foldl_add {ms : List Lexeme} (h : s.Reads ls) (hregular : ∀ l ∈ ms, l.Regular)
    (hproper : ∀ l ∈ ms, l.isProper = true) (hne : ∀ l ∈ ms, l.text ≠ []) :
    (ms.foldl Scan.add s).Reads (ls ++ ms) := by
  induction ms generalizing s ls with
  | nil => simpa using h
  | cons l ms ih =>
    rw [List.forall_mem_cons] at hregular hproper hne
    simpa using ih (h.add hregular.1 hproper.1 hne.1) hregular.2 hproper.2 hne.2

theorem empty : ({} : Scan).Reads [] :=
  ⟨rfl, ⟨rfl, List.forall_mem_nil _, .nil, .inl rfl⟩, ⟨rfl, List.forall_mem_nil _, .nil⟩,
    List.forall_mem_nil _⟩

end Reads

/-- No error is found in lexemes that are in order. -/
theorem errors_eq_nil_iff (s : Scan) (ms : List Lexeme) :
    (ms.foldl Scan.add s).errors = [] ↔ s.errors = [] ∧ ∀ l ∈ ms, l.isProper = true := by
  induction ms generalizing s with
  | nil => simp
  | cons l ms ih =>
    rw [List.foldl_cons, ih, add_errors, List.forall_mem_cons]
    cases l <;> simp [errorAt?, Lexeme.isProper]

end Scan

/-! ### The tokens and comments of a source text -/

/-- The tokens and comments belong to a text. -/
structure Tokenizes (source : List Char) (tokens : List Token) (comments : List Comment) :
    Prop where
  /-- Tokens start and end between characters. -/
  tokenBounds : ∀ t ∈ tokens, Text.IsBoundary source t.start ∧ Text.IsBoundary source t.stop ∧
    t.start ≤ t.stop
  /-- Comments start and end between characters. -/
  commentBounds : ∀ c ∈ comments, Text.IsBoundary source c.start ∧ Text.IsBoundary source c.stop ∧
    c.start ≤ c.stop
  /-- Tokens are in order and disjoint. -/
  tokensFollow : tokens.Pairwise fun t u => t.stop ≤ u.start
  /-- Comments are in order and disjoint. -/
  commentsFollow : comments.Pairwise fun c d => c.stop ≤ d.start
  /-- Tokens and comments are disjoint. -/
  apart : ∀ t ∈ tokens, ∀ c ∈ comments, t.stop ≤ c.start ∨ c.stop ≤ t.start
  /-- The text of a written token is its slice of the source. -/
  tokenText : ∀ t ∈ tokens, t.isWritten = true →
    Text.slice source t.start t.stop = t.kind.text.toList
  /-- The text of a comment is its slice of the source without the blanks at its end. -/
  commentText : ∀ c ∈ comments,
    c.text = String.ofList (Text.trimEnd (Text.slice source c.start c.stop))
  /-- Written tokens, comments and white space tile the source. -/
  tiled : ∃ tiles, Tiles source tokens comments tiles
  /-- The last token is the end of the text, and each other one is written or an inserted
  semicolon. -/
  ending : ∃ front, tokens = front ++ [⟨.eof, Text.byteSize source, Text.byteSize source⟩] ∧
    ∀ t ∈ front, t.kind ≠ .eof ∧ (t.isWritten = true ∨ t.IsInserted)
  /-- No semicolon is inserted in front of the first written token. -/
  first : ∀ t ∈ tokens.head?, t.isWritten = true ∨ t.kind = .eof
  /-- Between two written tokens one semicolon is inserted if the first one ends a statement and a
  newline stands between them, and none otherwise. -/
  gap : ∀ before a semis b behind, tokens = before ++ a :: (semis ++ b :: behind) →
    a.isWritten = true → b.isWritten = true → (∀ t ∈ semis, t.isWritten = false) →
    semis.length =
      if a.kind.endsStatement = true ∧ '\n' ∈ Text.slice source a.stop b.start then 1 else 0
  /-- Behind the last written token one semicolon is inserted if the token ends a statement, and
  none otherwise. -/
  last : ∀ before a semis e, tokens = before ++ a :: (semis ++ [e]) → a.isWritten = true →
    (∀ t ∈ semis, t.isWritten = false) → e.kind = .eof →
    semis.length = if a.kind.endsStatement = true then 1 else 0

/-! ### The end of a text -/

/-- The tokens of a text, the last one first, when the text ends at the byte `offset`. -/
def closed (offset : Nat) (ts : List Token) : List Token :=
  ⟨.eof, offset, offset⟩ :: lineEnded offset ts

namespace TokensRead

variable {ls : List Lexeme} {ts : List Token}

theorem standsIn_lineEnded (h : TokensRead ls ts) :
    ∀ t ∈ lineEnded (Text.byteSize (ls.flatMap Lexeme.text)) ts,
      t.StandsIn (ls.flatMap Lexeme.text) := by
  intro t ht
  rcases mem_lineEnded ht with ht | rfl
  · exact h.stand t ht
  · exact ⟨[], Text.between_end _, .inr ⟨rfl, rfl⟩⟩

theorem exists_between (h : TokensRead ls ts) :
    ∀ t ∈ closed (Text.byteSize (ls.flatMap Lexeme.text)) ts, ∃ part,
      Text.Between (ls.flatMap Lexeme.text) t.start t.stop part ∧
        (t.isWritten = true → part = t.kind.text.toList) := by
  refine List.forall_mem_cons.mpr ⟨⟨[], Text.between_end _, by simp [Token.isWritten]⟩, ?_⟩
  intro t ht
  obtain ⟨part, hpart, ⟨-, htext, -⟩ | hinserted⟩ := h.standsIn_lineEnded t ht
  · exact ⟨part, hpart, fun _ => htext⟩
  · exact ⟨part, hpart, by simp [hinserted.isWritten]⟩

theorem follow_closed (h : TokensRead ls ts) :
    (closed (Text.byteSize (ls.flatMap Lexeme.text)) ts).Pairwise fun t u => u.stop ≤ t.start := by
  have hstop : ∀ t ∈ ts, t.stop ≤ Text.byteSize (ls.flatMap Lexeme.text) :=
    fun t ht => (h.stand t ht).stop_le
  refine List.pairwise_cons.mpr ⟨fun t ht => (h.standsIn_lineEnded t ht).stop_le, ?_⟩
  unfold lineEnded
  split
  · exact List.pairwise_cons.mpr ⟨hstop, h.follow⟩
  · exact h.follow

theorem written_closed (h : TokensRead ls ts) (offset : Nat) :
    (closed offset ts).reverse.filter Token.isWritten = (placed 0 ls).filterMap tokenAt? := by
  have heof : (⟨.eof, offset, offset⟩ : Token).isWritten = false := by simp [Token.isWritten]
  have hsemi : (⟨.punct .semi, offset, offset⟩ : Token).isWritten = false := by
    simp [Token.isWritten]
  rw [← h.written, closed, lineEnded]
  split <;> simp [heof, hsemi]

/-- The tokens of a text are its end alone, or end with a written token and the semicolon that the
end of the text adds. -/
theorem spaced_closed (h : TokensRead ls ts) (offset : Nat) :
    closed offset ts = [⟨.eof, offset, offset⟩] ∨ ∃ semis a rest,
      closed offset ts = (⟨.eof, offset, offset⟩ :: semis) ++ a :: rest ∧
        Spaced (ls.flatMap Lexeme.text) (a :: rest) ∧
        (∀ t ∈ (⟨.eof, offset, offset⟩ :: semis : List Token), t.isWritten = false) ∧
        semis.length = if a.kind.endsStatement = true then 1 else 0 := by
  have heof : (⟨.eof, offset, offset⟩ : Token).isWritten = false := by simp [Token.isWritten]
  rcases h.spaced.exists_lineEnded offset with hnil | ⟨semis, a, rest, heq, hspaced, hsemis,
    hlen, -⟩
  · exact .inl (by rw [closed, hnil])
  · exact .inr ⟨semis, a, rest, by rw [closed, heq, List.cons_append], hspaced,
      List.forall_mem_cons.mpr ⟨heof, fun t ht => (hsemis t ht).isWritten⟩, hlen⟩

/-- The first token of a text is written, unless it is the end of the text. -/
theorem first_closed (h : TokensRead ls ts) (offset : Nat) :
    ∀ t ∈ (closed offset ts).reverse.head?, t.isWritten = true ∨ t.kind = .eof := by
  intro t ht
  rw [List.head?_reverse] at ht
  rcases h.spaced_closed offset with heq | ⟨semis, a, rest, heq, hspaced, -⟩
  · rw [heq] at ht
    cases ht
    exact .inr rfl
  · obtain ⟨us, u, hus, hu⟩ := hspaced.exists_first
    have hconcat : closed offset ts = ((⟨.eof, offset, offset⟩ :: semis) ++ us) ++ [u] := by
      rw [heq, hus, List.append_assoc]
    rw [hconcat, List.getLast?_concat] at ht
    cases ht
    exact .inl hu

theorem gap_closed (h : TokensRead ls ts) {offset : Nat} {before semis behind : List Token}
    {a b : Token} (heq : (closed offset ts).reverse = before ++ a :: (semis ++ b :: behind))
    (ha : a.isWritten = true) (hb : b.isWritten = true)
    (hsemis : ∀ t ∈ semis, t.isWritten = false) :
    semis.length = if a.kind.endsStatement = true ∧
      '\n' ∈ Text.slice (ls.flatMap Lexeme.text) a.stop b.start then 1 else 0 := by
  have hclosed : closed offset ts =
      behind.reverse ++ b :: (semis.reverse ++ a :: before.reverse) := by
    rw [← List.reverse_reverse (closed offset ts), heq]
    simp
  rcases h.spaced_closed offset with hnil | ⟨ends, c, rest, hends, hspaced, hunwritten, -⟩
  · have hlen := congrArg List.length (hnil.symm.trans hclosed)
    simp at hlen
    omega
  · obtain ⟨us, -, hus⟩ := Spaced.exists_of_append_eq (hends.symm.trans hclosed) hunwritten hb
    obtain ⟨part, hpart, -, hlen⟩ := hspaced.gap hus ha hb (by simpa using hsemis)
    rw [hpart.slice_eq, ← hlen, List.length_reverse]

theorem last_closed (h : TokensRead ls ts) {offset : Nat} {before semis : List Token} {a e : Token}
    (heq : (closed offset ts).reverse = before ++ a :: (semis ++ [e])) (ha : a.isWritten = true)
    (hsemis : ∀ t ∈ semis, t.isWritten = false) :
    semis.length = if a.kind.endsStatement = true then 1 else 0 := by
  have hclosed : closed offset ts = (e :: semis.reverse) ++ a :: before.reverse := by
    rw [← List.reverse_reverse (closed offset ts), heq]
    simp
  obtain rfl : e = ⟨.eof, offset, offset⟩ := by
    rw [closed] at hclosed
    exact (List.cons.inj hclosed).1.symm
  rcases h.spaced_closed offset with hnil | ⟨ends, c, rest, hends, hspaced, hunwritten, hlen⟩
  · have hlen := congrArg List.length (hnil.symm.trans hclosed)
    simp at hlen
  · have hleft : ∀ t ∈ (⟨.eof, offset, offset⟩ :: semis.reverse : List Token),
      t.isWritten = false :=
      List.forall_mem_cons.mpr ⟨by simp [Token.isWritten], by simpa using hsemis⟩
    -- the last written token is found by both decompositions
    obtain ⟨hsame, rfl, -⟩ := Spaced.append_inj (hends.symm.trans hclosed) hunwritten
      hspaced.isWritten_head hleft ha
    have hcount := congrArg List.length (List.cons.inj hsame).2
    rw [← hlen, hcount, List.length_reverse]

end TokensRead

theorem Lexeme.isBlank_of_regular {l : Lexeme} (hregular : l.Regular)
    (hproper : l.isProper = true) :
    (∃ kind, l = .token kind) ∨ (∃ text, l = .comment text) ∨
      ∀ c ∈ l.text, Text.isBlank c = true := by
  cases l with
  | newline => exact .inr (.inr (by simp [text]; decide))
  | blank c => exact .inr (.inr (by simpa [text] using hregular.1))
  | comment text => exact .inr (.inl ⟨text, rfl⟩)
  | token kind => exact .inl ⟨kind, rfl⟩
  | fault cause text => cases hproper

theorem Scan.finish_tokens (s : Scan) : s.finish.tokens = closed s.offset s.tokens := by
  rw [finish, endLine_eq]
  rfl

theorem Scan.finish_comments (s : Scan) : s.finish.comments = s.comments := by
  rw [finish, endLine_eq]
  rfl

theorem Scan.finish_errors (s : Scan) : s.finish.errors = s.errors := by
  rw [finish, endLine_eq]
  rfl

/-- What has been read when the text ends tokenizes it. -/
theorem Scan.Reads.tokenizes {s : Scan} {ls : List Lexeme} (h : s.Reads ls)
    (hregular : ∀ l ∈ ls, l.Regular) (hproper : ∀ l ∈ ls, l.isProper = true) :
    Tokenizes (ls.flatMap Lexeme.text) s.finish.tokens.reverse s.comments.reverse := by
  rw [finish_tokens, h.offset]
  refine
    { tokenBounds := ?_, commentBounds := ?_, tokensFollow := ?_, commentsFollow := ?_
      apart := ?_, tokenText := ?_, commentText := ?_, tiled := ?_, ending := ?_
      first := h.tokens.first_closed _
      gap := fun _ _ _ _ _ heq ha hb hsemis => h.tokens.gap_closed heq ha hb hsemis
      last := fun _ _ _ _ heq ha hsemis _ => h.tokens.last_closed heq ha hsemis }
  · intro t ht
    obtain ⟨part, hpart, -⟩ := h.tokens.exists_between t (List.mem_reverse.mp ht)
    exact ⟨hpart.start, hpart.stop, hpart.le⟩
  · intro c hc
    obtain ⟨part, hpart, -⟩ := h.comments.stand c (List.mem_reverse.mp hc)
    exact ⟨hpart.start, hpart.stop, hpart.le⟩
  · exact List.pairwise_reverse.mpr h.tokens.follow_closed
  · exact List.pairwise_reverse.mpr h.comments.follow
  · intro t ht c hc
    rw [List.mem_reverse] at ht hc
    rcases List.mem_cons.mp ht with rfl | ht
    · exact .inr (h.offset ▸ h.stop_le hc)
    · exact h.apart_lineEnded (Nat.le_of_eq h.offset) t ht c hc
  · intro t ht hwritten
    obtain ⟨part, hpart, htext⟩ := h.tokens.exists_between t (List.mem_reverse.mp ht)
    rw [hpart.slice_eq, htext hwritten]
  · intro c hc
    obtain ⟨part, hpart, htext⟩ := h.comments.stand c (List.mem_reverse.mp hc)
    rw [hpart.slice_eq, htext]
  · exact ⟨ls, rfl, h.tokens.written_closed _, h.comments.written,
      fun l hl => Lexeme.isBlank_of_regular (hregular l hl) (hproper l hl)⟩
  · refine ⟨_, List.reverse_cons, fun t ht => ?_⟩
    obtain ⟨part, -, ⟨hwritten, -, hkind⟩ | hinserted⟩ :=
      h.tokens.standsIn_lineEnded t (List.mem_reverse.mp ht)
    · exact ⟨hkind, .inl hwritten⟩
    · exact ⟨by rw [hinserted.1]; exact nofun, .inr hinserted⟩

/-- What is read from a source text is read from lexemes that it consists of. -/
theorem Scan.exists_reads {source : List Char} {tokens : List Token} {comments : List Comment}
    (h : scan source = .ok (tokens, comments)) : ∃ (s : Scan) (ls : List Lexeme),
      s.Reads ls ∧ (∀ l ∈ ls, l.Regular) ∧ (∀ l ∈ ls, l.isProper = true) ∧
        ls.flatMap Lexeme.text = source ∧ s.finish.tokens.reverse = tokens ∧
        s.comments.reverse = comments := by
  unfold scan at h
  dsimp only at h
  split at h
  · rename_i herrors
    cases h
    rw [List.isEmpty_iff, Scan.finish_errors] at herrors
    have hregular : ∀ l ∈ lexemes source, l.Regular :=
      regular_of_mem_lexemesFrom (List.forall_mem_nil _)
    have hne : ∀ l ∈ lexemes source, l.text ≠ [] := mem_lexemesFrom (List.forall_mem_nil _)
    have hproper := ((Scan.errors_eq_nil_iff {} _).mp herrors).2
    have hreads := Scan.Reads.empty.foldl_add hregular hproper hne
    exact ⟨_, _, hreads, hregular, hproper, lexemes_text source, rfl, by rw [Scan.finish_comments]⟩
  · cases h

/-- The tokens and comments that are read from a source text tokenize it. -/
theorem scan_tokenizes {source : List Char} {tokens : List Token} {comments : List Comment}
    (h : scan source = .ok (tokens, comments)) : Tokenizes source tokens comments := by
  obtain ⟨s, ls, hreads, hregular, hproper, rfl, rfl, rfl⟩ := Scan.exists_reads h
  exact hreads.tokenizes hregular hproper

private theorem scan_lines : scan "x /* é\n*/ + 'a' // end \n)".toList =
    .ok ([⟨.ident "x", 0, 1⟩, ⟨.punct .semi, 10, 10⟩, ⟨.punct .plus, 11, 12⟩,
        ⟨.literal .char "'a'", 13, 16⟩, ⟨.punct .semi, 24, 24⟩, ⟨.punct .rparen, 25, 26⟩,
        ⟨.punct .semi, 26, 26⟩, ⟨.eof, 26, 26⟩],
      [⟨"/* é\n*/", 2, 10⟩, ⟨"// end", 17, 24⟩]) := by
  simp only [String.reduceToList]
  decide +kernel

/-- A newline in a block comment, one behind a line comment and the end of the text each end a
line. -/
theorem scan_tokenizes_lines : ∃ tokens comments,
    scan "x /* é\n*/ + 'a' // end \n)".toList = .ok (tokens, comments) ∧
      tokens.map Token.isWritten = [true, false, true, true, false, true, false, false] ∧
      Tokenizes "x /* é\n*/ + 'a' // end \n)".toList tokens comments := by
  exact ⟨_, _, scan_lines, rfl, scan_tokenizes scan_lines⟩

end ServiceSplit
