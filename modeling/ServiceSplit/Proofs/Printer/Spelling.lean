import Mathlib.Data.List.Forall2
import ServiceSplit.Printer.Tree
import ServiceSplit.Proofs.Parser.Taking
import ServiceSplit.Proofs.Printer.Respacing

/-!
# Pieces that stand for a part

The pieces of a name, a type or a signature are read as the same tokens wherever they stand, as long
as what follows cannot be taken for more of their last token. This file says so for pieces that are
put together from others: behind marks, in brackets, with commas between them, or on lines in
braces.
-/

namespace ServiceSplit

/-! ### Marks and what follows them -/

/-- The characters that make a longer mark of the mark. -/
def Punct.extensions (p : Punct) : List Char :=
  Punct.longestFirst.filterMap fun q =>
    if p.text.toList.isPrefixOf q.text.toList then q.text.toList[p.text.toList.length]? else none

namespace TokenKind

theorem stops_punct {p : Punct} {c : Char} (h : c ∉ p.extensions)
    (hslash : p = .slash → c ≠ '/' ∧ c ≠ '*') (hdot : p = .dot → c.isDigit = false) :
    (punct p).stops c = true := by
  have hany : (Punct.longestFirst.any fun q =>
      (p.text.toList ++ [c]).isPrefixOf q.text.toList) = false := by
    rw [List.any_eq_false]
    intro q hq hprefix
    obtain ⟨more, heq⟩ := List.isPrefixOf_iff_prefix.mp hprefix
    refine h (List.mem_filterMap.mpr ⟨q, hq, ?_⟩)
    rw [← heq, List.append_assoc, if_pos (List.isPrefixOf_iff_prefix.mpr (List.prefix_append _ _))]
    simp
  have hslash' : (p == .slash && (c == '/' || c == '*')) = false := by
    cases hp : p == .slash with
    | false => rfl
    | true => simpa using hslash (eq_of_beq hp)
  have hdot' : (p == .dot && c.isDigit) = false := by
    cases hp : p == .dot with
    | false => rfl
    | true => simpa using hdot (eq_of_beq hp)
  simp only [stops, hany, hslash', hdot', Bool.not_false, Bool.and_self]

/-- A point does not go on with a word. -/
theorem stops_dot {c : Char} (h : Text.isWordStart c = true) :
    (punct .dot).stops c = true := by
  have hlow : 65 ≤ c.toNat := by
    rcases Bool.or_eq_true_iff.mp h with hletter | hline
    · exact (Text.inRanges_cons.mp hletter).1
    · rw [eq_of_beq hline]
      decide
  refine stops_punct ?_ nofun fun _ => ?_
  · rw [show Punct.extensions .dot = ['.'] by decide, List.mem_singleton]
    rintro rfl
    exact absurd hlow (by decide)
  · by_contra hdigit
    have hc : c.toNat ≤ 57 := (Char.isDigit_iff_toNat.mp (Bool.not_eq_false _ ▸ hdigit)).2
    omega

theorem isPlain_keyword (k : Keyword) : (keyword k).isPlain = true := by
  cases k <;> decide

end TokenKind

namespace Piece

/-- The characters that may follow the pieces of a part. -/
def closes (c : Char) : Bool :=
  c == ',' || c == ')' || c == ']' || c == ' ' || c == '\n'

theorem closes_iff {c : Char} :
    closes c = true ↔ c = ',' ∨ c = ')' ∨ c = ']' ∨ c = ' ' ∨ c = '\n' := by
  simp [closes, or_assoc]

theorem firstChar?_token {kind : TokenKind} {c : Char} {cs : List Char}
    (h : kind.text.toList = c :: cs) (ps : List Piece) :
    firstChar? (token kind :: ps) = some c := by
  simp [firstChar?, text, h]

theorem firstChar?_append {ps : List Piece} {c : Char} (h : firstChar? ps = some c)
    (qs : List Piece) : firstChar? (ps ++ qs) = some c := by
  rw [firstChar?, List.findSome?_append, ← firstChar?, h]
  rfl

/-! ### Parts -/

/-- Pieces that are read as tokens of the kinds `ks`, wherever they stand in front of something that
closes them; the last token ends a statement. -/
structure Spells (ps : List Piece) (ks : List TokenKind) : Prop where
  first : ∃ c, firstChar? ps = some c ∧ c ≠ '='
  apart : ∀ qs, apart qs = true → (firstChar? qs).all closes = true → apart (ps ++ qs) = true
  kinds : ∀ ends qs, kindsFrom ends (ps ++ qs) = ks ++ kindsFrom true qs

/-- A token that can stand at the end of a part. -/
structure Final (kind : TokenKind) : Prop where
  isPlain : kind.isPlain = true
  endsStatement : kind.endsStatement = true
  stops : ∀ c, closes c = true → kind.stops c = true

/-- A token that can stand in front of a part without a blank. -/
structure Initial (kind : TokenKind) : Prop where
  isPlain : kind.isPlain = true
  stops : ∀ c, c ≠ '=' → kind.stops c = true

theorem final_ident {name : String} (h : (TokenKind.ident name).isPlain = true) :
    Final (.ident name) where
  isPlain := h
  endsStatement := rfl
  stops c hc := by
    show (!Text.isWordChar c) = true
    rcases closes_iff.mp hc with rfl | rfl | rfl | rfl | rfl <;> decide

theorem final_literal {lit : LitKind} {raw : String}
    (h : (TokenKind.literal lit raw).isPlain = true) : Final (.literal lit raw) where
  isPlain := h
  endsStatement := rfl
  stops c hc := by
    have hword : Text.isWordChar c = false := by
      rcases closes_iff.mp hc with rfl | rfl | rfl | rfl | rfl <;> decide
    have hnumber : endsNumber raw.toList c = true := by
      rcases closes_iff.mp hc with rfl | rfl | rfl | rfl | rfl <;> simp [endsNumber, hword]
    cases lit <;> first | rfl | exact hnumber

/-- A closing mark. -/
theorem final_punct {p : Punct} (h : p = .rparen ∨ p = .rbracket ∨ p = .rbrace) :
    Final (.punct p) := by
  refine ⟨Lexeme.isPlain_punct p, ?_, fun c _ => TokenKind.stops_punct ?_ ?_ ?_⟩
  · rcases h with rfl | rfl | rfl <;> rfl
  · have hnone : p.extensions = [] := by rcases h with rfl | rfl | rfl <;> decide
    simp [hnone]
  · rintro rfl
    simp at h
  · rintro rfl
    simp at h

theorem initial_punct {p : Punct} (h : p.extensions = [] ∨ p.extensions = ['='])
    (hslash : p ≠ .slash) (hdot : p ≠ .dot) : Initial (.punct p) where
  isPlain := Lexeme.isPlain_punct p
  stops c hc := by
    refine TokenKind.stops_punct ?_ (absurd · hslash) (absurd · hdot)
    rcases h with h | h <;> simp [h, hc]

theorem initial_bracket : Initial (.punct .lbracket) ∧ Initial (.punct .rbracket) :=
  ⟨initial_punct (by decide) (by decide) (by decide), initial_punct (by decide) (by decide)
    (by decide)⟩

variable {ps qs : List Piece} {ks ls : List TokenKind} {kind : TokenKind}

/-- The first character of a token is no sign of equality. -/
theorem exists_firstChar? (hplain : kind.isPlain = true) (hne : kind.text.toList.head? ≠ some '=')
    (ps : List Piece) : ∃ c, firstChar? (token kind :: ps) = some c ∧ c ≠ '=' := by
  obtain ⟨c, cs, htext, -⟩ := TokenKind.isPlain_iff.mp hplain
  refine ⟨c, firstChar?_token htext ps, ?_⟩
  rintro rfl
  simp [htext] at hne

theorem apart_token (hplain : kind.isPlain = true)
    (hstops : ∀ c, firstChar? ps = some c → kind.stops c = true) (hps : apart ps = true) :
    apart (token kind :: ps) = true := by
  rw [apart, hplain, hps, Bool.true_and, Bool.and_true]
  cases hfirst : firstChar? ps with
  | none => rfl
  | some c => exact hstops c hfirst

theorem isLayout_blank : isLayout " " = true := by
  decide

theorem isLayout_newline : isLayout "\n" = true := by
  decide

theorem apart_blank (h : apart ps = true) : apart (blank :: ps) = true := by
  rw [blank, apart, isLayout_blank, h]
  rfl

theorem apart_newline (h : apart ps = true) : apart (newline :: ps) = true := by
  rw [newline, apart, isLayout_newline, h]
  rfl

theorem kindsFrom_blank (ends : Bool) (ps : List Piece) :
    kindsFrom ends (blank :: ps) = kindsFrom ends ps := by
  rw [blank, kindsFrom]
  simp

private theorem isSpace_of_mem_lexemes_tabs {n : Nat} :
    ∀ l ∈ ServiceSplit.lexemes (List.replicate n '\t'), l.isSpace = true := by
  induction n with
  | zero => exact fun l hl => absurd hl List.not_mem_nil
  | succ n ih =>
    rw [List.replicate_succ, lexemes_cons]
    exact List.forall_mem_cons.mpr ⟨rfl, ih⟩

theorem apart_tabs (depth : Nat) (h : apart ps = true) : apart (tabs depth :: ps) = true := by
  have hlayout : isLayout (String.ofList (List.replicate depth '\t')) = true := by
    have hblank : Text.isBlank '\t' = true := by decide
    rw [isLayout, String.toList_ofList, List.all_eq_true.mpr isSpace_of_mem_lexemes_tabs,
      List.all_eq_true.mpr fun c hc => (List.eq_of_mem_replicate hc).symm ▸ hblank]
    simp
  rw [tabs, apart, hlayout, h]
  rfl

theorem kindsFrom_tabs (ends : Bool) (depth : Nat) (ps : List Piece) :
    kindsFrom ends (tabs depth :: ps) = kindsFrom ends ps := by
  rw [tabs, kindsFrom, String.toList_ofList]
  simp

theorem kindsFrom_newline (ends : Bool) (ps : List Piece) :
    kindsFrom ends (newline :: ps) =
      (if ends then [.punct .semi] else []) ++ kindsFrom false ps := by
  cases ends <;> simp [newline, kindsFrom]

theorem kindsFrom_token (ends : Bool) (kind : TokenKind) (ps : List Piece) :
    kindsFrom ends (token kind :: ps) = kind :: kindsFrom kind.endsStatement ps :=
  rfl

theorem kindsFrom_mark (ends : Bool) (p : Punct) (ps : List Piece) :
    kindsFrom ends (mark p :: ps) = .punct p :: kindsFrom (TokenKind.punct p).endsStatement ps :=
  rfl

/-- Only marks start with a sign of equality. -/
theorem head?_ne {kind : TokenKind} (hplain : kind.isPlain = true) (h : ∀ p, kind ≠ .punct p) :
    kind.text.toList.head? ≠ some '=' := by
  obtain ⟨c, cs, htext, hnext⟩ := TokenKind.isPlain_iff.mp hplain
  rw [htext, List.head?_cons]
  rintro ⟨⟩
  have hmark : Lexeme.next '=' cs = Lexeme.mark '=' cs := by
    unfold Lexeme.next
    simp [show Text.isBlank '=' = false by decide, show Text.isWordStart '=' = false by decide]
  rw [hmark, Lexeme.mark] at hnext
  split at hnext
  · exact h _ (Lexeme.token.inj (Prod.mk.inj hnext).1).symm
  · cases hnext

namespace Spells

theorem token (h : Final kind) (hne : kind.text.toList.head? ≠ some '=') :
    Spells [.token kind] [kind] where
  first := exists_firstChar? h.isPlain hne []
  apart qs hqs hfirst := by
    refine apart_token h.isPlain (fun c (hc : firstChar? qs = some c) => h.stops c ?_) hqs
    rw [hc] at hfirst
    exact hfirst
  kinds ends qs := by
    rw [List.singleton_append, kindsFrom, h.endsStatement]
    rfl

theorem ident {name : String} (h : (TokenKind.ident name).isPlain = true) :
    Spells [.ident name] [.ident name] :=
  token (final_ident h) (head?_ne h nofun)

/-- A token in front of a part that does not go on with it. -/
theorem cons_of_stops (hplain : kind.isPlain = true) (hne : kind.text.toList.head? ≠ some '=')
    (hps : Spells ps ks) (hstops : ∀ c, firstChar? ps = some c → c ≠ '=' → kind.stops c = true) :
    Spells (.token kind :: ps) (kind :: ks) where
  first := exists_firstChar? hplain hne ps
  apart qs hqs hfirst := by
    obtain ⟨c, hc, hc'⟩ := hps.first
    refine apart_token hplain (fun d hd => ?_) (hps.apart qs hqs hfirst)
    cases (firstChar?_append hc qs).symm.trans hd
    exact hstops c hc hc'
  kinds ends qs := by
    rw [List.cons_append, kindsFrom, hps.kinds]
    rfl

/-- A token in front of a part. -/
theorem cons (h : Initial kind) (hne : kind.text.toList.head? ≠ some '=') (hps : Spells ps ks) :
    Spells (.token kind :: ps) (kind :: ks) :=
  cons_of_stops h.isPlain hne hps fun c _ hc => h.stops c hc

/-- A name in front of an opening bracket or parenthesis. -/
theorem cons_word (hplain : kind.isPlain = true) (hword : ∀ c, kind.stops c = !Text.isWordChar c)
    (hne : kind.text.toList.head? ≠ some '=') {p : Punct} (hp : p = .lparen ∨ p = .lbracket)
    (hps : Spells (mark p :: ps) ks) : Spells (.token kind :: mark p :: ps) (kind :: ks) := by
  refine cons_of_stops hplain hne hps fun c hc _ => ?_
  rw [hword]
  rcases hp with rfl | rfl
  · cases (firstChar?_token rfl ps).symm.trans hc
    decide
  · cases (firstChar?_token rfl ps).symm.trans hc
    decide

/-- A token and a blank in front of a part. -/
theorem cons_blank (hplain : kind.isPlain = true) (hne : kind.text.toList.head? ≠ some '=')
    (hps : Spells ps ks) : Spells (.token kind :: blank :: ps) (kind :: ks) where
  first := exists_firstChar? hplain hne _
  apart qs hqs hfirst := by
    refine apart_token hplain (fun d hd => ?_) (apart_blank (hps.apart qs hqs hfirst))
    cases (show firstChar? (blank :: (ps ++ qs)) = some ' ' from rfl).symm.trans hd
    exact TokenKind.stops_blank (by rintro rfl; cases hplain)
  kinds ends qs := by
    rw [List.cons_append, List.cons_append, kindsFrom, kindsFrom_blank, hps.kinds]
    rfl

/-- Two parts with a blank between them. -/
theorem append_blank (hps : Spells ps ks) (hqs : Spells qs ls) :
    Spells (ps ++ blank :: qs) (ks ++ ls) where
  first := by
    obtain ⟨c, hc, hne⟩ := hps.first
    exact ⟨c, firstChar?_append hc _, hne⟩
  apart rs hrs hfirst := by
    rw [List.append_assoc]
    exact hps.apart _ (apart_blank (hqs.apart rs hrs hfirst)) rfl
  kinds ends rs := by
    rw [List.append_assoc, List.cons_append, hps.kinds, kindsFrom_blank, hqs.kinds,
      List.append_assoc]

/-- Two parts with a closing mark between them. -/
theorem glue (hps : Spells ps ks) {p : Punct} (h : Initial (.punct p))
    (hclose : p.text.toList.head?.all closes = true) (hqs : Spells qs ls) :
    Spells (ps ++ mark p :: qs) (ks ++ .punct p :: ls) where
  first := by
    obtain ⟨c, hc, hne⟩ := hps.first
    exact ⟨c, firstChar?_append hc _, hne⟩
  apart rs hrs hfirst := by
    rw [List.append_assoc]
    obtain ⟨c, cs, htext, -⟩ := TokenKind.isPlain_iff.mp h.isPlain
    refine hps.apart _ ?_ ?_
    · obtain ⟨d, hd, hne⟩ := hqs.first
      refine apart_token h.isPlain (fun e he => ?_) (hqs.apart rs hrs hfirst)
      cases (firstChar?_append hd rs).symm.trans he
      exact h.stops d hne
    · rw [show mark p = .token (.punct p) from rfl, List.cons_append, firstChar?_token htext]
      rw [show p.text = (TokenKind.punct p).text from rfl, htext] at hclose
      exact hclose
  kinds ends rs := by
    rw [List.append_assoc, List.cons_append, hps.kinds]
    rw [show mark p = .token (.punct p) from rfl, kindsFrom, hqs.kinds, List.append_assoc]
    rfl

/-- A part with a token at its end. -/
theorem snoc (hps : Spells ps ks) (h : Final kind)
    (hclose : kind.text.toList.head?.all closes = true) :
    Spells (ps ++ [.token kind]) (ks ++ [kind]) where
  first := by
    obtain ⟨c, hc, hne⟩ := hps.first
    exact ⟨c, firstChar?_append hc _, hne⟩
  apart rs hrs hfirst := by
    rw [List.append_assoc, List.singleton_append]
    obtain ⟨c, cs, htext, -⟩ := TokenKind.isPlain_iff.mp h.isPlain
    refine hps.apart _ ?_ ?_
    · refine apart_token h.isPlain (fun d hd => h.stops d ?_) hrs
      rw [hd] at hfirst
      exact hfirst
    · rw [firstChar?_token htext]
      rw [htext] at hclose
      exact hclose
  kinds ends rs := by
    rw [List.append_assoc, List.singleton_append, hps.kinds, kindsFrom, h.endsStatement,
      List.append_assoc]
    rfl

/-- A part in parentheses. -/
theorem parens (hps : Spells ps ks) :
    Spells (Piece.parens ps) (.punct .lparen :: (ks ++ [.punct .rparen])) :=
  cons (initial_punct (by decide) (by decide) (by decide)) (by decide)
    (hps.snoc (final_punct (by decide)) (by decide))

/-- A part in brackets. -/
theorem brackets (hps : Spells ps ks) :
    Spells (Piece.brackets ps) (.punct .lbracket :: (ks ++ [.punct .rbracket])) :=
  cons initial_bracket.1 (by decide) (hps.snoc (final_punct (by decide)) (by decide))

/-- A part behind another one in brackets. -/
theorem brackets_append (hps : Spells ps ks) (hqs : Spells qs ls) :
    Spells (Piece.brackets ps ++ qs) (.punct .lbracket :: (ks ++ .punct .rbracket :: ls)) := by
  have heq : Piece.brackets ps ++ qs = mark .lbracket :: (ps ++ mark .rbracket :: qs) := by
    simp [Piece.brackets]
  rw [heq]
  exact cons initial_bracket.1 (by decide) (hps.glue initial_bracket.2 (by decide) hqs)

/-! ### Lists -/

variable {pss : List (List Piece)} {kss : List (List TokenKind)}

/-- Parts with a separator between them. -/
theorem intersperse {S : List Piece → List TokenKind → Prop} {sep : List Piece} {mark : TokenKind}
    (hsep : ∀ {ps qs ks ls}, S ps ks → S qs ls → S (ps ++ (sep ++ qs)) (ks ++ mark :: ls))
    (hne : pss ≠ []) (h : List.Forall₂ S pss kss) :
    S (List.flatten (pss.intersperse sep)) (mark.join kss) := by
  induction h with
  | nil => exact absurd rfl hne
  | @cons ps ks pss kss hps hrest ih =>
    cases hrest with
    | nil => simpa [TokenKind.join] using hps
    | @cons qs ls pss kss hqs hrest =>
      have hmore := ih (List.cons_ne_nil _ _)
      have heq : List.flatten ((ps :: qs :: pss).intersperse sep) =
          ps ++ (sep ++ List.flatten ((qs :: pss).intersperse sep)) := by
        cases pss <;> simp
      rw [heq]
      exact hsep hps hmore

/-- A part in front of one that starts with a comma. -/
theorem append_comma (hps : Spells ps ks) (hqs : Spells (mark .comma :: qs) ls) :
    Spells (ps ++ mark .comma :: qs) (ks ++ ls) where
  first := by
    obtain ⟨c, hc, hne⟩ := hps.first
    exact ⟨c, firstChar?_append hc _, hne⟩
  apart rs hrs hfirst := by
    have hcomma : firstChar? (mark .comma :: qs ++ rs) = some ',' := firstChar?_token rfl _
    rw [List.append_assoc]
    exact hps.apart _ (hqs.apart rs hrs hfirst) (hcomma ▸ rfl)
  kinds ends rs := by
    rw [List.append_assoc, hps.kinds, hqs.kinds, List.append_assoc]

/-- Parts with commas between them. -/
theorem commas (hne : pss ≠ []) (h : List.Forall₂ Spells pss kss) :
    Spells (Piece.commas pss) (TokenKind.join (.punct .comma) kss) :=
  intersperse (fun hps hqs =>
    hps.append_comma (cons_blank (Lexeme.isPlain_punct _) (by decide) hqs)) hne h

/-- The terms of a union. -/
theorem union (hne : pss ≠ []) (h : List.Forall₂ Spells pss kss) :
    Spells (layOutUnion pss) (TokenKind.join (.punct .pipe) kss) :=
  intersperse
    (fun hps hqs => hps.append_blank (cons_blank (Lexeme.isPlain_punct _) (by decide) hqs))
    hne h

/-! ### Lines in braces -/

private theorem lines_cons (ps : List Piece) (pss : List (List Piece)) (depth : Nat)
    (qs : List Piece) : ((ps :: pss).map (indented depth)).flatten ++ qs =
      tabs depth :: (ps ++ newline :: ((pss.map (indented depth)).flatten ++ qs)) := by
  simp [indented]

theorem apart_lines (h : List.Forall₂ Spells pss kss) (depth : Nat) {qs : List Piece}
    (hqs : Piece.apart qs = true) :
    Piece.apart ((pss.map (indented depth)).flatten ++ qs) = true := by
  induction h with
  | nil => exact hqs
  | cons hps _ ih =>
    rw [lines_cons]
    exact apart_tabs depth (hps.apart _ (apart_newline ih) rfl)

theorem kindsFrom_lines (h : List.Forall₂ Spells pss kss) (depth : Nat) (qs : List Piece) :
    kindsFrom false ((pss.map (indented depth)).flatten ++ qs) =
      kss.flatMap (· ++ [.punct .semi]) ++ kindsFrom false qs := by
  induction h with
  | nil => rfl
  | cons hps _ ih =>
    rw [lines_cons, kindsFrom_tabs, hps.kinds, kindsFrom_newline, ih]
    simp

/-- Parts on lines of their own in braces, behind a keyword. -/
theorem braces (h : List.Forall₂ Spells pss kss) (keyword : Keyword)
    (hne : keyword.text.toList.head? ≠ some '=') (indent : Nat) :
    Spells (layOutBraces keyword indent pss) (.keyword keyword :: .punct .lbrace ::
      (kss.flatMap (· ++ [.punct .semi]) ++ [.punct .rbrace])) := by
  have hplain := TokenKind.isPlain_keyword keyword
  have hopen : Initial (.punct .lbrace) := initial_punct (by decide) (by decide) (by decide)
  have hclosed : ∀ qs, Piece.apart qs = true → (firstChar? qs).all closes = true →
      Piece.apart (mark .rbrace :: qs) = true :=
    (Spells.token (final_punct (by decide)) (by decide)).apart
  have hleft : ∀ qs, firstChar? (mark .lbrace :: qs) = some '\x7b' := firstChar?_token rfl
  have hright : ∀ qs, firstChar? (mark .rbrace :: qs) = some '\x7d' := firstChar?_token rfl
  cases h with
  | nil =>
    refine ⟨exists_firstChar? hplain hne _, fun qs hqs hfirst => ?_, fun ends qs => rfl⟩
    refine apart_token hplain (fun c hc => ?_) (apart_token hopen.isPlain (fun c hc => ?_)
      (hclosed qs hqs hfirst))
    · cases (hleft _).symm.trans hc
      exact (by decide : (!Text.isWordChar '\x7b') = true)
    · cases (hright qs).symm.trans hc
      exact hopen.stops _ (by decide)
  | @cons ps ks pss kss hps hrest =>
    have hlines : List.Forall₂ Spells (ps :: pss) (ks :: kss) := .cons hps hrest
    have heq : ∀ qs, layOutBraces keyword indent (ps :: pss) ++ qs =
        .token (.keyword keyword) :: blank :: mark .lbrace :: newline ::
          (((ps :: pss).map (indented (indent + 1))).flatten ++
            (tabs indent :: mark .rbrace :: qs)) := by
      intro qs
      simp [layOutBraces, Piece.braces, word]
    refine ⟨?_, fun qs hqs hfirst => ?_, fun ends qs => ?_⟩
    · exact exists_firstChar? hplain hne _
    · have hbody := apart_lines hlines (indent + 1) (apart_tabs indent (hclosed qs hqs hfirst))
      rw [heq]
      refine apart_token hplain (fun c hc => ?_) (apart_blank (apart_token hopen.isPlain
        (fun c hc => ?_) (apart_newline hbody)))
      · cases (show firstChar? (blank :: _) = some ' ' from rfl).symm.trans hc
        exact TokenKind.stops_blank nofun
      · cases (show firstChar? (newline :: _) = some '\n' from rfl).symm.trans hc
        exact hopen.stops _ (by decide)
    · rw [heq, kindsFrom_token, kindsFrom_blank, kindsFrom_mark, kindsFrom_newline]
      rw [show (TokenKind.punct .lbrace).endsStatement = false from rfl, kindsFrom_lines hlines,
        kindsFrom_tabs, kindsFrom_mark]
      simp [show (TokenKind.punct .rbrace).endsStatement = true from rfl]

/-! ### A part on its own -/

/-- The tokens of the text of a part on its own. -/
theorem scan (h : Spells ps ks) : ∃ tokens comments,
    ServiceSplit.scan (textOf ps).toList = .ok (tokens, comments) ∧
      tokens.map Token.kind = ks ++ [.punct .semi, .eof] := by
  have hapart : Piece.apart ps = true := by
    simpa using h.apart [] rfl rfl
  obtain ⟨tokens, comments, hscan, hkinds⟩ := scan_textOf hapart
  refine ⟨tokens, comments, hscan, ?_⟩
  rw [hkinds, h.kinds, kindsFrom_newline]
  simp [kindsFrom]

end Spells

end Piece

end ServiceSplit
