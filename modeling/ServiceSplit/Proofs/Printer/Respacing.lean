import ServiceSplit.Proofs.Printer.Pieces
import ServiceSplit.Proofs.Token.Plain

/-!
# Source texts written with single blanks

The tokens of a source text, written one after the other with a blank between them, are read as the
same tokens. Every token is plain and ends in front of a blank, and the semicolons that line ends
had added are written out, so that the single line needs none of its own: not even at its end, where
a scan never leaves a token that ends a statement.
-/

namespace ServiceSplit

/-- The texts of the tokens in front of the end of the text, with single blanks between them. -/
def respaced (kinds : List TokenKind) : List Char :=
  [' '].intercalate ((kinds.filter (· != .eof)).map fun kind => kind.text.toList)

/-! ### The tokens of a text -/

namespace Lexeme

theorem isPlain_of_mem_lexemes {cs : List Char} {kind : TokenKind}
    (h : token kind ∈ ServiceSplit.lexemes cs) : kind.isPlain = true := by
  induction hn : cs.length using Nat.strong_induction_on generalizing cs with
  | _ n ih =>
    subst hn
    cases cs with
    | nil => cases h
    | cons c cs =>
      rw [lexemes_cons] at h
      rcases List.mem_cons.mp h with hfirst | hrest
      · have hnext : next c cs = (token kind, (next c cs).2) := by rw [hfirst]
        exact isPlain_of_next hnext
      · exact ih _ (length_next c cs) hrest rfl

theorem mem_kindsFrom {ends : Bool} {ls : List Lexeme} {kind : TokenKind}
    (h : kind ∈ kindsFrom ends ls) : token kind ∈ ls ∨ kind = .punct .semi := by
  induction ls generalizing ends with
  | nil => cases h
  | cons l ls ih =>
    have hother : kind ∈ (if ends && l.endsLine then .punct .semi :: kindsFrom false ls
        else kindsFrom ends ls) → token kind ∈ l :: ls ∨ kind = .punct .semi := by
      intro h
      split at h
      · rcases List.mem_cons.mp h with rfl | h
        · exact .inr rfl
        · exact (ih h).imp_left (List.mem_cons_of_mem l)
      · exact (ih h).imp_left (List.mem_cons_of_mem l)
    cases l with
    | token found =>
      rcases List.mem_cons.mp h with rfl | h
      · exact .inl List.mem_cons_self
      · exact (ih h).imp_left (List.mem_cons_of_mem _)
    | newline | blank | comment | fault => exact hother h

end Lexeme

/-- The tokens of a source text in front of its end: all of them are plain, and the last one ends no
statement, since a semicolon would have followed it. -/
theorem exists_kinds_of_scan {source : List Char} {tokens : List Token} {comments : List Comment}
    (h : scan source = .ok (tokens, comments)) :
    ∃ kinds : List TokenKind, tokens.map Token.kind = kinds ++ [.eof] ∧
      (∀ kind ∈ kinds, kind.isPlain = true ∧ kind ≠ .eof) ∧
      kinds.getLast?.any TokenKind.endsStatement = false := by
  unfold scan at h
  dsimp only at h
  split at h
  · rename_i herrors
    rw [Scan.finish_errors, List.isEmpty_iff] at herrors
    have hproper := ((Scan.errors_eq_nil_iff _ _).mp herrors).2
    have hkinds := Scan.foldl_add_kinds hproper {}
    obtain ⟨htokens, -⟩ := Prod.mk.inj (Except.ok.inj h)
    generalize hs : (lexemes source).foldl Scan.add {} = s at hkinds htokens
    refine ⟨s.endLine.kinds, ?_, ?_, ?_⟩
    · rw [← htokens, Scan.kinds_finish, Scan.kinds_endLine]
    · intro kind hkind
      rw [Scan.kinds_endLine, hkinds, List.mem_append] at hkind
      have hmem : .token kind ∈ lexemes source ∨ kind = .punct .semi := by
        rcases hkind with hkind | hkind
        · exact Lexeme.mem_kindsFrom hkind
        · split at hkind
          · exact .inr (List.mem_singleton.mp hkind)
          · cases hkind
      rcases hmem with hmem | rfl
      · exact ⟨Lexeme.isPlain_of_mem_lexemes hmem,
          regular_of_mem_lexemesFrom (List.forall_mem_nil _) _ hmem⟩
      · exact ⟨Lexeme.isPlain_punct .semi, nofun⟩
    · have hends := Scan.ends_endLine s
      rw [Scan.ends] at hends
      rw [Scan.kinds, List.map_reverse, List.getLast?_reverse, List.head?_map, Option.any_map]
      exact hends
  · cases h

/-! ### Blanks between plain tokens -/

theorem TokenKind.stops_blank {kind : TokenKind} (h : kind ≠ .eof) : kind.stops ' ' = true := by
  have hword : Text.isWordChar ' ' = false := by decide
  cases kind with
  | ident name | keyword word => simp [stops, hword]
  | literal kind raw => cases kind <;> simp [stops, endsNumber, hword]
  | punct p => cases p <;> decide
  | eof => exact absurd rfl h

/-- Tokens with blanks between them. -/
def blanked (kinds : List TokenKind) : List Piece :=
  (kinds.map Piece.token).intersperse Piece.blank

theorem blanked_cons_cons (a b : TokenKind) (kinds : List TokenKind) :
    blanked (a :: b :: kinds) = .token a :: Piece.blank :: blanked (b :: kinds) :=
  rfl

theorem toList_textOf_blanked (kinds : List TokenKind) :
    (Piece.textOf (blanked kinds)).toList =
      [' '].intercalate (kinds.map fun kind => kind.text.toList) := by
  induction kinds with
  | nil => rfl
  | cons a kinds ih =>
    cases kinds with
    | nil => simp [blanked, Piece.textOf, Piece.text, List.intercalate]
    | cons b kinds =>
      rw [blanked_cons_cons, Piece.toList_textOf_cons, Piece.toList_textOf_cons, ih]
      simp [Piece.text, Piece.blank, List.intercalate]

theorem apart_blanked {kinds : List TokenKind}
    (h : ∀ kind ∈ kinds, kind.isPlain = true ∧ kind ≠ .eof) :
    Piece.apart (blanked kinds) = true := by
  induction kinds with
  | nil => rfl
  | cons a kinds ih =>
    obtain ⟨⟨hplain, hne⟩, hkinds⟩ := List.forall_mem_cons.mp h
    cases kinds with
    | nil => simp [blanked, Piece.apart, Piece.firstChar?, hplain]
    | cons b kinds =>
      have hfirst : Piece.firstChar? (Piece.blank :: blanked (b :: kinds)) = some ' ' := rfl
      have hblank : Piece.isLayout " " = true := by decide
      rw [blanked_cons_cons, Piece.apart, hfirst, Option.all_some, hplain,
        TokenKind.stops_blank hne, Piece.blank, Piece.apart, hblank, ih hkinds]
      rfl

/-- The single line of some tokens ends without a semicolon of its own if the last token ends no
statement. -/
theorem kindsFrom_blanked {kinds : List TokenKind} {ends : Bool} (hends : kinds = [] → ends = false)
    (h : kinds.getLast?.any TokenKind.endsStatement = false) :
    Piece.kindsFrom ends (blanked kinds ++ [Piece.newline]) = kinds := by
  induction kinds generalizing ends with
  | nil =>
    rw [hends rfl]
    rfl
  | cons a kinds ih =>
    cases kinds with
    | nil =>
      have ha : a.endsStatement = false := h
      simp [blanked, Piece.kindsFrom, Piece.newline, ha]
    | cons b kinds =>
      have hrest := @ih a.endsStatement nofun (by simpa using h)
      rw [blanked_cons_cons, List.cons_append, Piece.kindsFrom, List.cons_append, Piece.blank,
        Piece.kindsFrom, hrest]
      simp

/-- Written with single blanks, a source text keeps its tokens. -/
theorem scan_respaced {source : List Char} {tokens : List Token} {comments : List Comment}
    (h : scan source = .ok (tokens, comments)) :
    ∃ again others, scan (respaced (tokens.map Token.kind)) = .ok (again, others) ∧
      again.map Token.kind = tokens.map Token.kind := by
  obtain ⟨kinds, hkinds, hplain, hlast⟩ := exists_kinds_of_scan h
  have htext : respaced (tokens.map Token.kind) = (Piece.textOf (blanked kinds)).toList := by
    have hfilter : kinds.filter (· != .eof) = kinds :=
      List.filter_eq_self.mpr fun kind hkind => by simpa using (hplain kind hkind).2
    rw [toList_textOf_blanked, respaced, hkinds, List.filter_append, hfilter]
    simp
  obtain ⟨again, others, hscan, hagain⟩ := scan_textOf (apart_blanked hplain)
  refine ⟨again, others, htext ▸ hscan, ?_⟩
  rw [hagain, hkinds, kindsFrom_blanked (fun _ => rfl) hlast]

/-- A hexadecimal digit in front of a sign, a point at the end of a number in front of another
point, a line end inside a comment, and a text without its last line end. -/
theorem scan_respaced_lines : ∃ tokens comments again others,
    scan "n:=0xe+1..f(.5)/*\n*/n--".toList = .ok (tokens, comments) ∧
      scan "n := 0xe + 1. . f ( .5 ) ; n -- ;".toList = .ok (again, others) ∧
      again.map Token.kind = tokens.map Token.kind := by
  have hsource : scan "n:=0xe+1..f(.5)/*\n*/n--".toList = .ok (_, _) := rfl
  obtain ⟨again, others, hscan, hkinds⟩ := scan_respaced hsource
  exact ⟨_, _, again, others, hsource, hscan, hkinds⟩

end ServiceSplit
