import ServiceSplit.Proofs.RoundTrip.Parentheses

/-!
# Operations are read back

An operation is built from names by operators, selectors, indices, calls and parentheses. Whatever
its shape is, it is printed on one line, and the text is read as the same operation, but for places
and parentheses.

With the parentheses of the printer the tree is grouped, and the parser reads grouped trees back
from their tokens. The tokens of the text are those of the tree, since no two of them fuse:
operators without blanks around them stand in front of a name, a parenthesis or a unary operator
that does not go on with them. The only pair that does, `/` in front of `*`, has blanks at every
depth.
-/

namespace ServiceSplit

open ServiceSplit.Parser

/-! ### Names -/

namespace Text

/-- Whether a text is a name: a word that is not reserved. -/
def isName (name : String) : Bool :=
  match name.toList with
  | [] => false
  | c :: cs => isWordStart c && cs.all isWordChar && (Keyword.ofText? name).isNone

theorem mem_range_of_inRanges {ranges : List (Nat × Nat)} {n : Nat} (h : inRanges ranges n = true) :
    n ∈ ranges.flatMap fun r => List.range' r.1 (r.2 + 1 - r.1) := by
  induction ranges with
  | nil => cases h
  | cons r ranges ih =>
    obtain ⟨hlow, hhigh | hrest⟩ := inRanges_cons.mp h
    · refine List.mem_flatMap.mpr ⟨r, List.mem_cons_self, ?_⟩
      rw [List.mem_range'_1]
      omega
    · exact List.mem_append_right _ (ih hrest)

/-- The code points of white space, none of which is that of a letter or of an underscore. -/
private def blanks : {ns : List Nat // ∀ n ∈ ns, inRanges letterRanges n = false ∧ n ≠ 95} :=
  ⟨blankRanges.flatMap fun r => List.range' r.1 (r.2 + 1 - r.1), by decide +kernel⟩

/-- No white space starts a word. -/
theorem isBlank_of_isWordStart {c : Char} (h : isWordStart c = true) : isBlank c = false := by
  by_contra hblank
  obtain ⟨hletter, hline⟩ := blanks.2 _ (mem_range_of_inRanges (Bool.not_eq_false _ ▸ hblank))
  rcases Bool.or_eq_true_iff.mp h with h | h
  · exact absurd (hletter.symm.trans h) Bool.false_ne_true
  · exact hline (by rw [eq_of_beq h]; rfl)

end Text

theorem TokenKind.isPlain_ident_of_isName {name : String} (h : Text.isName name = true) :
    (TokenKind.ident name).isPlain = true := by
  unfold Text.isName at h
  split at h
  · cases h
  · rename_i c cs hname
    rw [Bool.and_eq_true, Bool.and_eq_true, List.all_eq_true, Option.isNone_iff_eq_none] at h
    obtain ⟨⟨hstart, hrest⟩, hkeyword⟩ := h
    have hne : ∀ d, Text.isWordStart d = false → c ≠ d := by
      rintro d hd rfl
      exact absurd (hstart.symm.trans hd).symm Bool.false_ne_true
    refine isPlain_iff.mpr ⟨c, cs, hname, ?_⟩
    have hspan : cs.span Text.isWordChar = (cs, []) := by
      rw [List.span_eq_takeWhile_dropWhile, List.takeWhile_eq_self_iff.mpr hrest,
        List.dropWhile_eq_nil_iff.mpr hrest]
    have hword : String.ofList (c :: cs) = name := by rw [← hname, String.ofList_toList]
    unfold Lexeme.next
    rw [if_neg (hne _ (by decide)), if_neg (fun h => hne _ (by decide) h.1),
      if_neg (fun h => hne _ (by decide) h.1), Text.isBlank_of_isWordStart hstart,
      if_neg Bool.false_ne_true, if_pos hstart, hspan]
    simp only [hword, TokenKind.ofWord, hkeyword]

/-! ### Pieces of operations -/

namespace Piece

/-- Whether the text of an operation can start with the character. -/
def startsOperation (c : Char) : Bool :=
  Text.isWordStart c || c == '(' || c == '*' || c == '!' || c == '<'

/-- Pieces on one line that are read as tokens of the kinds `ks`, wherever they stand in front of
something that does not go on with a word; the last token ends a statement. -/
structure Writes (ps : List Piece) (ks : List TokenKind) : Prop where
  first : ∃ c, firstChar? ps = some c ∧ startsOperation c = true
  apart : ∀ qs, apart qs = true → (firstChar? qs).all (!Text.isWordChar ·) = true →
    apart (ps ++ qs) = true
  kinds : ∀ ends qs, kindsFrom ends (ps ++ qs) = ks ++ kindsFrom true qs
  oneLine : ∀ p ∈ ps, '\n' ∉ p.text.toList

/-- Pieces on one line that can follow an operation, and that end as one does. -/
structure Follows (ps : List Piece) (ks : List TokenKind) : Prop where
  first : ∃ c, firstChar? ps = some c ∧ Text.isWordChar c = false
  apart : ∀ qs, apart qs = true → (firstChar? qs).all (!Text.isWordChar ·) = true →
    apart (ps ++ qs) = true
  kinds : ∀ qs, kindsFrom true (ps ++ qs) = ks ++ kindsFrom true qs
  oneLine : ∀ p ∈ ps, '\n' ∉ p.text.toList

variable {ps qs : List Piece} {ks ls : List TokenKind}

theorem Writes.append (hps : Writes ps ks) (hqs : Follows qs ls) : Writes (ps ++ qs)
    (ks ++ ls) where
  first := by
    obtain ⟨c, hc, hstart⟩ := hps.first
    exact ⟨c, firstChar?_append hc qs, hstart⟩
  apart rs hrs hfirst := by
    obtain ⟨c, hc, hword⟩ := hqs.first
    rw [List.append_assoc]
    refine hps.apart _ (hqs.apart rs hrs hfirst) ?_
    rw [firstChar?_append hc, Option.all_some, hword]
    rfl
  kinds ends rs := by rw [List.append_assoc, hps.kinds, hqs.kinds, List.append_assoc]
  oneLine := List.forall_mem_append.mpr ⟨hps.oneLine, hqs.oneLine⟩

/-! ### Marks -/

theorem exists_firstChar?_mark (p : Punct) (qs : List Piece) :
    ∃ c, firstChar? (mark p :: qs) = some c ∧ Text.isWordChar c = false := by
  have htext : ∃ c cs, (TokenKind.punct p).text.toList = c :: cs ∧ Text.isWordChar c = false := by
    cases p <;> exact ⟨_, _, rfl, by decide⟩
  obtain ⟨c, cs, htext, hword⟩ := htext
  exact ⟨c, firstChar?_token htext qs, hword⟩

theorem oneLine_mark (p : Punct) : '\n' ∉ (mark p).text.toList := by
  cases p <;> decide

theorem oneLine_blank : '\n' ∉ blank.text.toList := by
  decide

/-- A mark that starts no longer one ends in front of everything. -/
theorem apart_mark_of_extensions {p : Punct} (h : p.extensions = []) (hslash : p ≠ .slash)
    (hdot : p ≠ .dot) (hqs : apart qs = true) : apart (mark p :: qs) = true := by
  refine apart_token (Lexeme.isPlain_punct p) (fun c _ => TokenKind.stops_punct ?_ ?_ ?_) hqs
  · rw [h]
    exact List.not_mem_nil
  · exact (absurd · hslash)
  · exact (absurd · hdot)

/-- A mark ends in front of an operation, unless the first character goes on with it. -/
theorem stops_of_startsOperation {p : Punct} {c : Char} (hc : startsOperation c = true)
    (hext : p.extensions.all (!startsOperation ·) = true) (hdot : p ≠ .dot)
    (hslash : p = .slash → c ≠ '*') : (TokenKind.punct p).stops c = true := by
  refine TokenKind.stops_punct (fun hmem => ?_) (fun hp => ⟨?_, hslash hp⟩) (absurd · hdot)
  · have hnot := List.all_eq_true.mp hext c hmem
    rw [hc] at hnot
    cases hnot
  · rintro rfl
    exact absurd hc (by decide)

theorem apart_mark_writes {p : Punct} (hqs : Writes qs ls)
    (hstops : ∀ c, firstChar? qs = some c → (TokenKind.punct p).stops c = true) {rs : List Piece}
    (hrs : apart rs = true) (hfirst : (firstChar? rs).all (!Text.isWordChar ·) = true) :
    apart (mark p :: (qs ++ rs)) = true := by
  refine apart_token (Lexeme.isPlain_punct p) (fun c hc => hstops c ?_) (hqs.apart rs hrs hfirst)
  obtain ⟨d, hd, -⟩ := hqs.first
  rwa [firstChar?_append hd, ← hd] at hc

/-- A mark and blanks around it in front of an operation. -/
theorem apart_mark_blank (p : Punct) (hqs : apart qs = true) :
    apart (mark p :: blank :: qs) = true := by
  refine apart_token (Lexeme.isPlain_punct p) (fun c hc => ?_) (apart_blank hqs)
  cases (show firstChar? (blank :: qs) = some ' ' from rfl).symm.trans hc
  exact TokenKind.stops_blank (by simp)

/-! ### Operations from their parts -/

theorem Writes.ident {name : String} (h : Text.isName name = true) :
    Writes [.ident name] [.ident name] := by
  have hplain := TokenKind.isPlain_ident_of_isName h
  obtain ⟨c, cs, htext, hstart, hrest, -⟩ := TokenKind.exists_of_isPlain_ident hplain
  have hfirst : firstChar? [.ident name] = some c :=
    firstChar?_token (show (TokenKind.ident name).text.toList = c :: cs from htext) []
  refine ⟨⟨c, hfirst, ?_⟩, fun qs hqs hfirst => ?_, fun ends qs => rfl, ?_⟩
  · rw [startsOperation, hstart]
    rfl
  · refine apart_token hplain (fun d (hd : firstChar? qs = some d) => ?_) hqs
    rw [hd] at hfirst
    exact hfirst
  · refine List.forall_mem_singleton.mpr fun (hmem : '\n' ∈ name.toList) => ?_
    rw [htext] at hmem
    rcases List.mem_cons.mp hmem with rfl | hmem
    · exact absurd hstart (by decide)
    · exact absurd (hrest _ hmem) (by decide)

/-- Parentheses or brackets around nothing or an operation, or around several with commas between
them. -/
theorem Follows.enclosed {left right : Punct}
    (hmarks : left = .lparen ∧ right = .rparen ∨ left = .lbracket ∧ right = .rbracket)
    (h : ps = [] ∧ ks = [] ∨ Writes ps ks) :
    Follows (mark left :: (ps ++ [mark right])) (.punct left :: (ks ++ [.punct right])) := by
  have hleft : left.extensions = [] ∧ left ≠ .slash ∧ left ≠ .dot ∧
      (TokenKind.punct left).endsStatement = false := by
    rcases hmarks with ⟨rfl, -⟩ | ⟨rfl, -⟩ <;> decide
  have hright : right.extensions = [] ∧ right ≠ .slash ∧ right ≠ .dot ∧
      (TokenKind.punct right).endsStatement = true := by
    rcases hmarks with ⟨-, rfl⟩ | ⟨-, rfl⟩ <;> decide
  have hclose : ∀ rs, Piece.apart rs = true → Piece.apart (mark right :: rs) = true := fun rs hrs =>
    apart_mark_of_extensions hright.1 hright.2.1 hright.2.2.1 hrs
  refine ⟨exists_firstChar?_mark left _, fun rs hrs _ => ?_, fun rs => ?_, ?_⟩
  · rw [List.cons_append, List.append_assoc, List.singleton_append]
    refine apart_mark_of_extensions hleft.1 hleft.2.1 hleft.2.2.1 ?_
    rcases h with ⟨rfl, -⟩ | h
    · exact hclose rs hrs
    · obtain ⟨c, hc, hword⟩ := exists_firstChar?_mark right rs
      exact h.apart _ (hclose rs hrs) (by rw [hc, Option.all_some, hword]; rfl)
  · rw [List.cons_append, List.append_assoc, List.singleton_append, kindsFrom_mark, hleft.2.2.2]
    have hrest : kindsFrom true (mark right :: rs) = .punct right :: kindsFrom true rs := by
      rw [kindsFrom_mark, hright.2.2.2]
    rcases h with ⟨rfl, rfl⟩ | h
    · exact congrArg _ (by rw [List.nil_append, kindsFrom_mark, hright.2.2.2]; rfl)
    · rw [h.kinds, hrest]
      simp
  · refine List.forall_mem_cons.mpr ⟨oneLine_mark left, List.forall_mem_append.mpr ⟨?_, ?_⟩⟩
    · rcases h with ⟨rfl, -⟩ | h
      · exact nofun
      · exact h.oneLine
    · exact List.forall_mem_singleton.mpr (oneLine_mark right)

theorem Writes.parens (h : Writes ps ks) :
    Writes (Piece.parens ps) (.punct .lparen :: (ks ++ [.punct .rparen])) := by
  have hfollows := Follows.enclosed (.inl ⟨rfl, rfl⟩) (.inr h)
  refine ⟨⟨'(', rfl, rfl⟩, hfollows.apart, fun ends qs => ?_, hfollows.oneLine⟩
  -- What an opening parenthesis makes of the tokens does not depend on what stands in front of it.
  exact hfollows.kinds qs

theorem Follows.selector {name : String} (h : Text.isName name = true) :
    Follows (mark .dot :: [.ident name]) [.punct .dot, .ident name] := by
  have hname := Writes.ident h
  refine ⟨exists_firstChar?_mark .dot _, fun rs hrs hfirst => ?_, fun rs => rfl, ?_⟩
  · refine apart_mark_writes hname (fun c hc => ?_) hrs hfirst
    obtain ⟨d, cs, htext, hstart, -⟩ :=
      TokenKind.exists_of_isPlain_ident (TokenKind.isPlain_ident_of_isName h)
    have hfirst : firstChar? [.ident name] = some d :=
      firstChar?_token (show (TokenKind.ident name).text.toList = d :: cs from htext) []
    cases hfirst.symm.trans hc
    exact TokenKind.stops_dot hstart
  · exact List.forall_mem_cons.mpr ⟨oneLine_mark .dot, hname.oneLine⟩

/-- An operator with blanks around it and its right operand. -/
theorem Follows.spaced (op : BinaryOp) (h : Writes ps ks) :
    Follows (blank :: mark op.mark :: blank :: ps) (.punct op.mark :: ks) := by
  refine ⟨⟨' ', rfl, by decide⟩, fun rs hrs hfirst => ?_, fun rs => ?_, ?_⟩
  · exact apart_blank (apart_mark_blank op.mark (h.apart rs hrs hfirst))
  · rw [List.cons_append, List.cons_append, List.cons_append, kindsFrom_blank, kindsFrom_mark,
      kindsFrom_blank, h.kinds]
    rfl
  · exact List.forall_mem_cons.mpr ⟨oneLine_blank, List.forall_mem_cons.mpr ⟨oneLine_mark op.mark,
      List.forall_mem_cons.mpr ⟨oneLine_blank, h.oneLine⟩⟩⟩

/-- An operator without blanks and its right operand. -/
theorem Follows.glued {p : Punct} (h : Writes ps ks)
    (hstops : ∀ c, firstChar? ps = some c → (TokenKind.punct p).stops c = true) :
    Follows (mark p :: ps) (.punct p :: ks) := by
  refine ⟨exists_firstChar?_mark p ps, fun rs hrs hfirst => ?_, fun rs => ?_, ?_⟩
  · exact apart_mark_writes h hstops hrs hfirst
  · rw [List.cons_append, kindsFrom_mark, h.kinds]
    rfl
  · exact List.forall_mem_cons.mpr ⟨oneLine_mark p, h.oneLine⟩

/-- A unary operator in front of its operand. -/
theorem Writes.unary {p : Punct} (hp : p = .star ∨ p = .bang ∨ p = .arrow) (h : Writes ps ks) :
    Writes (mark p :: ps) (.punct p :: ks) := by
  have hstops : ∀ c, firstChar? ps = some c → (TokenKind.punct p).stops c = true := by
    intro c hc
    obtain ⟨d, hd, hstart⟩ := h.first
    cases hd.symm.trans hc
    refine stops_of_startsOperation hstart ?_ ?_ ?_
    · rcases hp with rfl | rfl | rfl <;> decide
    · rcases hp with rfl | rfl | rfl <;> decide
    · rintro rfl
      simp at hp
  have hfollows := Follows.glued h hstops
  refine ⟨?_, hfollows.apart, fun ends qs => hfollows.kinds qs, hfollows.oneLine⟩
  rcases hp with rfl | rfl | rfl
  · exact ⟨'*', rfl, rfl⟩
  · exact ⟨'!', rfl, rfl⟩
  · exact ⟨'<', rfl, rfl⟩

theorem Writes.commas {pss : List (List Piece)} {kss : List (List TokenKind)} (hne : pss ≠ [])
    (h : List.Forall₂ Writes pss kss) :
    Writes (Piece.commas pss) (TokenKind.join (.punct .comma) kss) := by
  refine Spells.intersperse (fun {ps qs ks ls} hps hqs => hps.append ?_) hne h
  refine ⟨⟨',', rfl, by decide⟩, fun rs hrs hfirst => ?_, fun rs => ?_, ?_⟩
  · exact apart_mark_blank .comma (hqs.apart rs hrs hfirst)
  · show kindsFrom true (mark .comma :: blank :: (qs ++ rs)) = _
    rw [kindsFrom_mark, kindsFrom_blank, hqs.kinds]
    rfl
  · exact List.forall_mem_cons.mpr ⟨oneLine_mark .comma,
      List.forall_mem_cons.mpr ⟨oneLine_blank, hqs.oneLine⟩⟩

/-- The tokens of the text of an operation on its own. -/
theorem Writes.scan (h : Writes ps ks) : ∃ tokens comments,
    ServiceSplit.scan (textOf ps).toList = .ok (tokens, comments) ∧
      tokens.map Token.kind = ks ++ [.punct .semi, .eof] := by
  have hapart : Piece.apart ps = true := by
    simpa using h.apart [] rfl rfl
  obtain ⟨tokens, comments, hscan, hkinds⟩ := scan_textOf hapart
  refine ⟨tokens, comments, hscan, ?_⟩
  rw [hkinds, h.kinds, kindsFrom_newline]
  simp [kindsFrom]

theorem Writes.newline_not_mem (h : Writes ps ks) : '\n' ∉ (textOf ps).toList := by
  rw [textOf, String.toList_join]
  simpa using h.oneLine

end Piece

/-! ### Blanks -/

namespace Expr

open Piece

theorem fusing_operatorMix : (e : Expr) → e.operatorMix.fusing = 0 ∨ 4 ≤ e.operatorMix.fusing
  | binary op x y span => by
    have hx := fusing_operatorMix x
    have hy := fusing_operatorMix y
    have hown : op.fusesWith y = 0 ∨ 4 ≤ op.fusesWith y := by
      unfold BinaryOp.fusesWith
      split
      · split <;> simp
      · split <;> simp
      · exact .inl rfl
    have hnone : ({} : OperatorMix).fusing = 0 := rfl
    simp only [operatorMix, OperatorMix.union]
    split <;> split <;> omega
  | ident _ | lit .. | composite .. | funcLit .. | paren .. | selector .. | index .. | slice ..
  | typeAssert .. | call .. | star .. | unary .. | keyValue .. | type .. => .inl rfl

/-- Operators that bind less tightly than the additive ones always have blanks around them. -/
theorem four_le_cutoff (e : Expr) (depth : Nat) : 4 ≤ e.cutoff depth := by
  have h := e.fusing_operatorMix
  unfold cutoff
  dsimp only
  split
  · omega
  · split <;> split <;> omega

/-- All operators next to `/` in front of `*` have blanks around them. -/
theorem six_le_cutoff {x y : Expr} {span span' : Span} (depth : Nat) :
    6 ≤ (binary .quo x (star y span') span).cutoff depth := by
  have hmix : 5 ≤ (binary .quo x (star y span') span).operatorMix.fusing := by
    have hown : BinaryOp.quo.fusesWith (star y span') = 5 := rfl
    simp only [operatorMix, OperatorMix.union, hown]
    omega
  unfold cutoff
  dsimp only
  rw [if_pos (by omega)]
  omega

/-! ### Printing -/

/-- The printed text of the expression has the tokens of the expression with its parentheses, and
only a dereference at the start of the expression puts `*` at the start of the text. -/
def IsWritten (e : Expr) : Prop :=
  ∀ indent depth, ∃ ps, printExpr indent depth e = .ok ps ∧ Writes ps e.parenthesized.tokens ∧
    (firstChar? ps = some '*' → e.isBinary = true ∨ ∃ x span, e = .star x span)

variable {e x y : Expr}

/-- An operand with the parentheses around it. -/
theorem IsWritten.operand (h : x.IsWritten) (b : Bool) (indent depth : Nat) :
    ∃ ps, parensIf b <$> printExpr indent depth x = .ok ps ∧
      Writes ps (x.parenthesized.inParens b).tokens ∧
      (firstChar? ps = some '*' → b = false ∧
      (x.isBinary = true ∨ ∃ y span, x = .star y span)) := by
  obtain ⟨ps, hprint, hwrites, hstar⟩ := h indent depth
  refine ⟨parensIf b ps, by rw [hprint]; rfl, ?_⟩
  cases b with
  | true => exact ⟨hwrites.parens, nofun⟩
  | false => exact ⟨hwrites, fun hc => ⟨rfl, hstar hc⟩⟩

/-- What is printed in front of a selector, an index or arguments does not start with `*`. -/
theorem firstChar?_operand {ps : List Piece} (hstar : firstChar? ps = some '*' →
      x.parensAsOperand = false ∧ (x.isBinary = true ∨ ∃ y span, x = .star y span)) :
    firstChar? ps ≠ some '*' := by
  intro hc
  obtain ⟨hparens, hbinary | ⟨y, span, rfl⟩⟩ := hstar hc
  · cases x with
    | binary op y z span => cases hparens
    | _ => cases hbinary
  · cases hparens

theorem exists_printExprs {xs : List Expr} (h : ∀ x ∈ xs, x.IsWritten) (indent depth : Nat) :
    ∃ pss, printExprs indent depth xs = .ok pss ∧
      List.Forall₂ Writes pss (tokenLists (allParenthesized xs)) := by
  induction xs with
  | nil => exact ⟨[], rfl, .nil⟩
  | cons x xs ih =>
    obtain ⟨hx, hxs⟩ := List.forall_mem_cons.mp h
    obtain ⟨ps, hps, hwrites, -⟩ := hx indent depth
    obtain ⟨pss, hpss, hall⟩ := ih hxs
    exact ⟨ps :: pss, by rw [printExprs, hps, hpss]; rfl, .cons hwrites hall⟩

theorem isWritten_ident {id : Ident} (h : Text.isName id.name = true) : (ident id).IsWritten := by
  intro indent depth
  have hwrites := Writes.ident h
  have hempty : id.name.isEmpty = false :=
    TokenKind.isEmpty_text_of_isPlain (TokenKind.isPlain_ident_of_isName h)
  refine ⟨_, ?_, hwrites, fun hc => ?_⟩
  · rw [printExpr, Ident.print, hempty]
    rfl
  · obtain ⟨c, cs, htext, hstart, -⟩ :=
      TokenKind.exists_of_isPlain_ident (TokenKind.isPlain_ident_of_isName h)
    have hfirst : firstChar? [.ident id.name] = some c :=
      firstChar?_token (show (TokenKind.ident id.name).text.toList = c :: cs from htext) []
    cases hfirst.symm.trans hc
    exact absurd hstart (by decide)

theorem IsWritten.paren (h : x.IsWritten) (span : Span) : (Expr.paren x span).IsWritten := by
  intro indent depth
  rw [printExpr, parenthesized]
  split
  · rename_i hparen
    obtain ⟨ps, hprint, hwrites, hstar⟩ := h indent depth
    refine ⟨ps, hprint, hwrites, fun hc => ?_⟩
    rcases hstar hc with hbinary | ⟨y, span', rfl⟩
    · cases x with
      | binary op y z span => cases hparen
      | _ => cases hbinary
    · cases hparen
  · obtain ⟨ps, hprint, hwrites, -⟩ := h indent (innerDepth depth)
    exact ⟨Piece.parens ps, by rw [hprint]; rfl, hwrites.parens, by rintro ⟨⟩⟩

theorem IsWritten.selector (h : x.IsWritten) {sel : Ident} (hsel : Text.isName sel.name = true)
    (span : Span) : (Expr.selector x sel span).IsWritten := by
  intro indent depth
  obtain ⟨ps, hprint, hwrites, hstar⟩ := h.operand x.parensAsOperand indent
    (operandDepth x.parensAsOperand depth)
  have hempty : sel.name.isEmpty = false :=
    TokenKind.isEmpty_text_of_isPlain (TokenKind.isPlain_ident_of_isName hsel)
  refine ⟨ps ++ mark .dot :: [.ident sel.name], ?_, hwrites.append (.selector hsel), fun hc => ?_⟩
  · rw [printExpr, hprint, Ident.print, hempty]
    rfl
  · obtain ⟨c, hfirst, -⟩ := hwrites.first
    rw [firstChar?_append hfirst, ← hfirst] at hc
    exact absurd hc (firstChar?_operand hstar)

theorem IsWritten.index (h : x.IsWritten) {i : Expr} {is : List Expr}
    (his : ∀ j ∈ i :: is, j.IsWritten) (span : Span) : (Expr.index x (i :: is) span).IsWritten := by
  intro indent depth
  obtain ⟨ps, hprint, hwrites, hstar⟩ := h.operand x.parensAsOperand indent
    (operandDepth x.parensAsOperand 1)
  obtain ⟨pss, hpss, hall⟩ := exists_printExprs his indent (depth + 1)
  have hne : pss ≠ [] := by
    rintro rfl
    cases hall
  refine ⟨ps ++ brackets (commas pss), ?_, ?_, fun hc => ?_⟩
  · rw [printExpr, hprint, hpss]
    rfl
  · exact hwrites.append (.enclosed (.inr ⟨rfl, rfl⟩) (.inr (.commas hne hall)))
  · obtain ⟨c, hfirst, -⟩ := hwrites.first
    rw [firstChar?_append hfirst, ← hfirst] at hc
    exact absurd hc (firstChar?_operand hstar)

theorem IsWritten.call (h : x.IsWritten) {args : List Expr} (hargs : ∀ a ∈ args, a.IsWritten)
    (span : Span) : (Expr.call x args false span).IsWritten := by
  intro indent depth
  obtain ⟨ps, hprint, hwrites, hstar⟩ := h.operand x.parensAsOperand indent
    (operandDepth x.parensAsOperand (callDepth args depth))
  obtain ⟨pss, hpss, hall⟩ := exists_printExprs hargs indent (callDepth args depth)
  have hinner : commas pss = [] ∧ TokenKind.join (.punct .comma)
    (tokenLists (allParenthesized args)) = [] ∨
      Writes (commas pss)
        (TokenKind.join (.punct .comma) (tokenLists (allParenthesized args))) := by
    cases args with
    | nil =>
      cases hall
      exact .inl ⟨rfl, rfl⟩
    | cons a args =>
      refine .inr (.commas ?_ hall)
      rintro rfl
      cases hall
  refine ⟨ps ++ parens (commas pss), ?_, ?_, fun hc => ?_⟩
  · rw [printExpr, hprint, hpss]
    show Except.ok (ps ++ parens (commas pss ++ [])) = _
    rw [List.append_nil]
  · exact hwrites.append (.enclosed (.inl ⟨rfl, rfl⟩) hinner)
  · obtain ⟨c, hfirst, -⟩ := hwrites.first
    rw [firstChar?_append hfirst, ← hfirst] at hc
    exact absurd hc (firstChar?_operand hstar)

/-- No operation goes on with the last character of a unary operator. -/
theorem layOutUnary_eq {ps : List Piece} {ks : List TokenKind} (h : Writes ps ks) {p : Punct}
    {c : Char}
    (hc : startsOperation c = false ∨ c = '*' ∨ c = '!') (b : Bool) :
    layOutUnary p c b ps = mark p :: parensIf b ps := by
  have hfuses : fuses c (firstChar? ps) = false := by
    obtain ⟨d, hd, hstart⟩ := h.first
    rw [hd, fuses]
    rcases hc with hc | rfl | rfl
    · have hne : d ≠ c := by
        rintro rfl
        exact absurd (hstart.symm.trans hc).symm Bool.false_ne_true
      simp [hne]
    · simp
    · simp
  rw [layOutUnary, hfuses, Bool.or_false]

theorem IsWritten.star (h : x.IsWritten) (span : Span) : (Expr.star x span).IsWritten := by
  intro indent depth
  obtain ⟨ps, hprint, hwrites, -⟩ := h indent 1
  have hlayout : layOutUnary .star '*' x.isBinary ps = mark .star :: parensIf x.isBinary ps :=
    layOutUnary_eq hwrites (.inr (.inl rfl)) _
  refine ⟨layOutUnary .star '*' x.isBinary ps, ?_, ?_, fun _ => .inr ⟨x, span, rfl⟩⟩
  · rw [printExpr, hprint]
    rfl
  · rw [hlayout, parenthesized]
    refine Writes.unary (.inl rfl) ?_
    cases x.isBinary
    · exact hwrites
    · exact hwrites.parens

theorem IsWritten.unary (h : x.IsWritten) {op : UnaryOp} (hop : op = .not ∨ op = .recv)
    (span : Span) :
    (Expr.unary op x span).IsWritten := by
  intro indent depth
  obtain ⟨ps, hprint, hwrites, -⟩ := h indent (if x.isBinary then innerDepth depth else depth)
  have hlayout : layOutUnary op.mark op.lastChar x.isBinary ps =
      mark op.mark :: parensIf x.isBinary ps := by
    refine layOutUnary_eq hwrites ?_ _
    rcases hop with rfl | rfl
    · exact .inr (.inr rfl)
    · exact .inl (by decide)
  refine ⟨layOutUnary op.mark op.lastChar x.isBinary ps, ?_, ?_, fun hc => ?_⟩
  · rw [printExpr, hprint]
    rfl
  · rw [hlayout, parenthesized]
    refine Writes.unary ?_ ?_
    · rcases hop with rfl | rfl
      · exact .inr (.inl rfl)
      · exact .inr (.inr rfl)
    · cases x.isBinary
      · exact hwrites
      · exact hwrites.parens
  · rw [hlayout] at hc
    rcases hop with rfl | rfl <;> cases hc

/-- An operator without blanks does not fuse with its right operand. -/
theorem stops_mark {op : BinaryOp} {ps : List Piece} {ks : List TokenKind} {span : Span}
    {depth : Nat}
    (hblanks : ¬op.precedence < (Expr.binary op x y span).cutoff depth) (hwrites : Writes ps ks)
    (hstar : firstChar? ps = some '*' → y.parensBesides op.precedence true = false ∧
      (y.isBinary = true ∨ ∃ z span, y = .star z span)) {c : Char} (hc : firstChar? ps = some c) :
    (TokenKind.punct op.mark).stops c = true := by
  have hprec : 4 ≤ op.precedence := by
    have hcutoff := four_le_cutoff (Expr.binary op x y span) depth
    omega
  obtain ⟨d, hd, hstart⟩ := hwrites.first
  cases hd.symm.trans hc
  refine stops_of_startsOperation hstart ?_ ?_ fun hslash => ?_
  · cases op <;> first | decide | exact absurd hprec (by decide)
  · cases op <;> decide
  · rintro rfl
    have hop : op = .quo := by cases op <;> first | rfl | cases hslash
    subst hop
    obtain ⟨hparens, hbinary | ⟨z, span', rfl⟩⟩ := hstar hc
    -- Nothing binds more tightly than `/`, so a binary operand would be in parentheses.
    · cases y with
      | binary op' y z span' => cases op' <;> cases hparens
      | _ => cases hbinary
    · have hcutoff : 6 ≤ (Expr.binary .quo x (.star z span') span).cutoff depth :=
        six_le_cutoff depth
      exact hblanks (Nat.lt_of_lt_of_le (by decide) hcutoff)

theorem IsWritten.binary (hx : x.IsWritten) (hy : y.IsWritten) (op : BinaryOp) (span : Span) :
    (Expr.binary op x y span).IsWritten := by
  intro indent depth
  obtain ⟨ps, hps, hleft, -⟩ := hx.operand (x.parensBesides op.precedence false) indent
    (operandDepth (x.parensBesides op.precedence false) (leftDepth op.precedence depth x))
  obtain ⟨qs, hqs, hright, hstar⟩ := hy.operand (y.parensBesides op.precedence true) indent
    (operandDepth (y.parensBesides op.precedence true) (depth + 1))
  refine ⟨layOutBinary (op.precedence < (Expr.binary op x y span).cutoff depth) op ps qs, ?_, ?_,
    fun _ => .inl rfl⟩
  · rw [printExpr, hps, hqs]
    rfl
  · rw [parenthesized, tokens, layOutBinary]
    split
    · rw [List.append_assoc]
      exact hleft.append (.spaced op hright)
    · rename_i hblanks
      rw [decide_eq_true_eq] at hblanks
      exact hleft.append (.glued hright fun c hc => stops_mark hblanks hright hstar hc)

/-- An operation is written on one line with the tokens that it has with its parentheses. -/
theorem isWritten (h : e.isOperation Text.isName = true) : e.IsWritten := by
  have steps : OperationSteps Text.isName IsWritten :=
    { ident := fun id hid => isWritten_ident hid
      paren := fun x span _ ih => ih.paren span
      selector := fun x sel span _ ih hsel => ih.selector hsel span
      index := fun x i is span _ ih his => ih.index (fun j hj => (his j hj).2) span
      call := fun fn args span _ ih hargs => ih.call (fun a ha => (hargs a ha).2) span
      star := fun x span _ ih => ih.star span
      unary := fun op x span hop _ ih => ih.unary hop span
      binary := fun op x y span _ ihx _ ihy => ihx.binary ihy op span }
  exact steps.all e h

/-! ### Reading back -/

/-- The expression that a text is, if there is nothing behind it but the end of the line. -/
def ofText? (text : String) : Option Expr :=
  match scan text.toList with
  | .ok (tokens, comments) =>
    match (Grammar.ofBound (tokens.length + 1)).expr { rest := tokens, comments } with
    | .ok x c => if c.kinds = [.punct .semi, .eof] then some x else none
    | .error .. => none
  | .error _ => none

/-- An operation of any shape is printed on one line, and its text is read as the same operation,
but for places and parentheses. -/
theorem render_operation (h : e.isOperation Text.isName = true) :
    ∃ text x, e.render = .ok text ∧ '\n' ∉ text.toList ∧ ofText? text = some x ∧
    x.core = e.core := by
  obtain ⟨ps, hprint, hwrites, -⟩ := isWritten h 0 1
  obtain ⟨tokens, comments, hscan, hkinds⟩ := hwrites.scan
  have hread := isRead_of_isGrouped (isOperation_parenthesized h) (isGrouped_parenthesized h)
  have hlen : e.parenthesized.tokens.length < tokens.length + 1 := by
    have hlen := congrArg List.length hkinds
    rw [List.length_map, List.length_append] at hlen
    omega
  have hleast : ∀ p ∈ e.parenthesized.precedence?, 1 ≤ p := fun p hp => precedence_pos _ hp
  obtain ⟨x, c, hx, hreadAs⟩ :=
    hread.binary hlen hleast (c := { rest := tokens, comments }) hkinds rfl
    (by simp [BinaryOp.ofToken?])
  refine ⟨textOf ps, x, ?_, hwrites.newline_not_mem, ?_, ?_⟩
  · rw [render, hprint]
    rfl
  · rw [ofText?, hscan]
    dsimp only
    rw [show (Grammar.ofBound (tokens.length + 1)).expr =
      (Grammar.ofBound (tokens.length + 1)).binary 1
      from rfl, hx]
    exact if_pos hreadAs.kinds
  · calc x.core = x.unplaced.core := (core_unplaced x).symm
      _ = e.parenthesized.unplaced.core := by rw [hreadAs.unplaced]
      _ = e.parenthesized.core := core_unplaced _
      _ = e.core := core_parenthesized h

/-- A difference as the right operand of a difference, both divided by a dereferenced element, and a
selector of a disjunction that is negated. -/
def oddShape : Expr :=
  let name (text : String) : Expr := .ident (.made text)
  .call (name "f") [
    .binary .quo (.binary .sub (name "a") (.binary .sub (name "b") (name "c") .synthetic)
      .synthetic)
      (.star (.index (name "p") [.binary .add (name "i") (name "n") .synthetic] .synthetic)
        .synthetic)
      .synthetic,
    .unary .not
      (.selector (.binary .lor (name "x") (.unary .recv (name "ch") .synthetic) .synthetic)
      (.made "ok") .synthetic) .synthetic] false .synthetic

theorem render_oddShape : oddShape.isOperation Text.isName = true ∧
    ∃ text x, oddShape.render = .ok text ∧ '\n' ∉ text.toList ∧ ofText? text = some x ∧
      x.core = oddShape.core := by
  have h : oddShape.isOperation Text.isName = true := by rfl
  exact ⟨h, render_operation h⟩

end Expr

end ServiceSplit
