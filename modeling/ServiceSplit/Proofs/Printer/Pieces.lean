import ServiceSplit.Printer.Piece
import ServiceSplit.Proofs.Token.Plain
import ServiceSplit.Proofs.Token.Tokenization

/-!
# Reading printed pieces

The text of printed pieces is read as the tokens among them if no token goes on with the text behind
it and the layout between the tokens is white space and whole comments. A line end in the layout
adds a semicolon behind a token that ends a statement.
-/

namespace ServiceSplit

/-! ### Lexemes one by one -/

theorem Lexeme.length_next (c : Char) (cs : List Char) :
    (Lexeme.next c cs).2.length < (c :: cs).length := by
  have happend := congrArg List.length (Lexeme.next_append c cs)
  have hpos := List.length_pos_iff.mpr (Lexeme.next_text_ne_nil c cs)
  rw [List.length_append] at happend
  omega

theorem lexemesFrom_cons (seen : List Lexeme) (fuel : Nat) (c : Char) (cs : List Char) :
    lexemesFrom seen (fuel + 1) (c :: cs) =
      lexemesFrom ((Lexeme.next c cs).1 :: seen) fuel (Lexeme.next c cs).2 :=
  rfl

theorem lexemesFrom_seen (seen : List Lexeme) (fuel : Nat) (cs : List Char) :
    lexemesFrom seen fuel cs = seen.reverse ++ lexemesFrom [] fuel cs := by
  induction fuel generalizing seen cs with
  | zero => simp [lexemesFrom]
  | succ fuel ih =>
    cases cs with
    | nil => simp [lexemesFrom]
    | cons c cs =>
      rw [lexemesFrom_cons, lexemesFrom_cons, ih, ih [_]]
      simp

/-- The rounds left over when the text ends play no part. -/
theorem lexemesFrom_fuel {n m : Nat} {cs : List Char} (hn : cs.length ≤ n) (hm : cs.length ≤ m) :
    lexemesFrom [] n cs = lexemesFrom [] m cs := by
  induction n generalizing m cs with
  | zero =>
    rw [List.eq_nil_of_length_eq_zero (Nat.le_zero.mp hn)]
    cases m <;> rfl
  | succ n ih =>
    cases cs with
    | nil => cases m <;> rfl
    | cons c cs =>
      cases m with
      | zero => cases hm
      | succ m =>
        have hlen := Lexeme.length_next c cs
        rw [List.length_cons] at hlen hn hm
        rw [lexemesFrom_cons, lexemesFrom_cons, lexemesFrom_seen, lexemesFrom_seen [_] m,
          @ih m (Lexeme.next c cs).2 (by omega) (by omega)]

theorem lexemes_cons (c : Char) (cs : List Char) :
    lexemes (c :: cs) = (Lexeme.next c cs).1 :: lexemes (Lexeme.next c cs).2 := by
  have hlen := Lexeme.length_next c cs
  rw [List.length_cons] at hlen
  rw [lexemes, List.length_cons, lexemesFrom_cons, lexemesFrom_seen,
    lexemesFrom_fuel (by omega) (Nat.le_refl (Lexeme.next c cs).2.length)]
  rfl

/-! ### White space and comments -/

/-- Whether a lexeme is white space or a comment. -/
def Lexeme.isSpace : Lexeme → Bool
  | .newline | .blank _ | .comment _ => true
  | .token _ | .fault .. => false

namespace Lexeme

theorem isSpace_quoted (mark : Char) (kind : LitKind) (cause : SyntaxCause) (cs : List Char) :
    (quoted mark kind cause cs).1.isSpace = false := by
  unfold quoted
  split <;> rfl

theorem isSpace_rawString (cs : List Char) : (rawString cs).1.isSpace = false := by
  unfold rawString
  dsimp only
  split <;> rfl

theorem isSpace_number (cs : List Char) : (number cs).1.isSpace = false := by
  unfold number
  dsimp only
  split <;> rfl

theorem isSpace_mark (c : Char) (cs : List Char) : (mark c cs).1.isSpace = false := by
  unfold mark
  split <;> rfl

theorem closeComment_append_of_closed {seen cs text rest more : List Char}
    (h : closeComment seen cs = some (text, rest)) :
    closeComment seen (cs ++ more) = some (text, rest ++ more) := by
  fun_induction closeComment seen cs with
  | case1 => cases h
  | case2 seen c cs hend =>
    cases h
    obtain ⟨rfl, hhead⟩ := hend
    cases cs with
    | nil => cases hhead
    | cons d cs =>
      cases hhead
      simp [closeComment]
  | case3 seen c cs hend ih =>
    have hnot : ¬(c = '*' ∧ (cs ++ more).head? = some '/') := by
      rintro ⟨rfl, hhead⟩
      cases cs with
      | nil => cases h
      | cons d cs => exact hend ⟨rfl, hhead⟩
    rw [List.cons_append, closeComment, if_neg hnot]
    exact ih h

/-- White space and comments do not go on with the text behind them; for a comment that ends with
its line, the end of the line has to be there. -/
theorem next_append_of_isSpace {c : Char} {cs : List Char} (h : (next c cs).1.isSpace = true)
    (hline : c = '/' → '\n' ∈ cs) (more : List Char) :
    next c (cs ++ more) = ((next c cs).1, (next c cs).2 ++ more) := by
  have hhead : c = '/' → (cs ++ more).head? = cs.head? := by
    intro hc
    cases cs with
    | nil => cases hline hc
    | cons d cs => rfl
  have hslash : ∀ d, (c = '/' ∧ (cs ++ more).head? = some d) ↔ (c = '/' ∧ cs.head? = some d) := by
    intro d
    constructor <;> rintro ⟨hc, hd⟩
    · exact ⟨hc, hhead hc ▸ hd⟩
    · exact ⟨hc, (hhead hc).symm ▸ hd⟩
  revert h
  fun_cases next c cs with
  | case1 hnewline =>
    intro _
    rw [next, if_pos hnewline]
  | case2 hnewline hcomment front rest hspan =>
    intro _
    rw [List.span_eq_takeWhile_dropWhile] at hspan
    cases hspan
    have hmem := hline hcomment.1
    have hne : (cs.takeWhile (· != '\n')).length ≠ cs.length := by
      intro hlen
      have heq := List.IsPrefix.eq_of_length (List.takeWhile_prefix (· != '\n')) hlen
      rw [← heq] at hmem
      exact absurd (List.mem_takeWhile_imp hmem) (by simp)
    have hdrop : (cs.dropWhile (· != '\n')).isEmpty = false := by
      rw [List.isEmpty_eq_false_iff]
      intro hnil
      have happend := List.takeWhile_append_dropWhile (p := (· != '\n')) (l := cs)
      rw [hnil, List.append_nil] at happend
      exact hne (congrArg List.length happend)
    rw [next, if_neg hnewline, if_pos ((hslash '/').mpr hcomment),
      List.span_eq_takeWhile_dropWhile, List.takeWhile_append, if_neg hne, List.dropWhile_append,
      hdrop]
    rfl
  | case3 hnewline hcomment hblock text rest hclose =>
    intro _
    rw [next, if_neg hnewline, if_neg (mt (hslash '/').mp hcomment),
      if_pos ((hslash '*').mpr hblock)]
    cases cs with
    | nil => cases hblock.2
    | cons d cs =>
      rw [List.tail_cons] at hclose
      rw [List.cons_append, List.tail_cons, closeComment_append_of_closed hclose]
  | case5 hnewline hcomment hblock hblank =>
    intro _
    rw [next, if_neg hnewline, if_neg (mt (hslash '/').mp hcomment),
      if_neg (mt (hslash '*').mp hblock), if_pos hblank]
  | case4 | case6 => simp [isSpace]
  | case7 => simp [isSpace_number]
  | case8 | case9 => simp [isSpace_quoted]
  | case10 => simp [isSpace_rawString]
  | case11 => simp [isSpace_mark]

end Lexeme

/-- White space and comments in front of a text are read apart from it, if they end with a line or
hold no comment. -/
theorem lexemes_append_of_isSpace {cs : List Char} (h : ∀ l ∈ lexemes cs, l.isSpace = true)
    (hend : cs.getLast? = some '\n' ∨ ∀ c ∈ cs, Text.isBlank c = true) (more : List Char) :
    lexemes (cs ++ more) = lexemes cs ++ lexemes more := by
  induction hn : cs.length using Nat.strong_induction_on generalizing cs with
  | _ n ih =>
    subst hn
    cases cs with
    | nil => rfl
    | cons c cs =>
      rw [lexemes_cons] at h
      obtain ⟨hfirst, hrest⟩ := List.forall_mem_cons.mp h
      have hline : c = '/' → '\n' ∈ cs := by
        rintro rfl
        rcases hend with hlast | hblank
        · exact (List.mem_cons.mp (List.mem_of_getLast? hlast)).resolve_left (by decide)
        · exact absurd (hblank '/' (by simp)) (by decide)
      have happend := Lexeme.next_append c cs
      have hend' : (Lexeme.next c cs).2.getLast? = some '\n' ∨
          ∀ d ∈ (Lexeme.next c cs).2, Text.isBlank d = true := by
        rw [← happend] at hend
        rcases hend with hlast | hblank
        · cases hnil : (Lexeme.next c cs).2 with
          | nil => exact .inr (List.forall_mem_nil _)
          | cons d ds =>
            rw [hnil, List.getLast?_append, List.getLast?_cons] at hlast
            exact .inl (by rw [List.getLast?_cons]; exact hlast)
        · exact .inr fun d hd => hblank d (List.mem_append_right _ hd)
      rw [List.cons_append, lexemes_cons, lexemes_cons,
        Lexeme.next_append_of_isSpace hfirst hline more, List.cons_append,
        ih _ (Lexeme.length_next c cs) hrest hend' rfl]

/-! ### Pieces -/

namespace Piece

/-- The lexemes of a piece. -/
def lexemes : Piece → List Lexeme
  | token kind => [.token kind]
  | layout s => ServiceSplit.lexemes s.toList

/-- Whether a layout is white space, or lines of white space and comments. -/
def isLayout (s : String) : Bool :=
  (ServiceSplit.lexemes s.toList).all Lexeme.isSpace &&
    (s.toList.getLast? == some '\n' || s.toList.all Text.isBlank)

/-- Whether no token goes on with the text behind it. -/
def apart : List Piece → Bool
  | [] => true
  | token kind :: ps => kind.isPlain && (firstChar? ps).all kind.stops && apart ps
  | layout s :: ps => isLayout s && apart ps

/-- The kinds of the tokens of some pieces. A line end adds a semicolon if the token before it ends
a statement; `ends` tells whether the token in front of the pieces does. -/
def kindsFrom : (ends : Bool) → List Piece → List TokenKind
  | _, [] => []
  | _, token kind :: ps => kind :: kindsFrom kind.endsStatement ps
  | ends, layout s :: ps =>
    if ends && s.toList.contains '\n' then .punct .semi :: kindsFrom false ps else kindsFrom ends ps

theorem toList_textOf_cons (p : Piece) (ps : List Piece) :
    (textOf (p :: ps)).toList = p.text.toList ++ (textOf ps).toList := by
  simp [textOf]

theorem head?_textOf (ps : List Piece) : (textOf ps).toList.head? = firstChar? ps := by
  induction ps with
  | nil => rfl
  | cons p ps ih =>
    rw [toList_textOf_cons, firstChar?, List.findSome?_cons, List.head?_append, ih]
    cases p.text.toList.head? <;> rfl

theorem isLayout_of_apart {ps : List Piece} (h : apart ps = true) :
    ∀ s, layout s ∈ ps → isLayout s = true := by
  induction ps with
  | nil => exact fun s hs => nomatch hs
  | cons p ps ih =>
    intro s hs
    cases p with
    | token kind =>
      simp only [apart, Bool.and_eq_true] at h
      exact ih h.2 s (by simpa using hs)
    | layout t =>
      simp only [apart, Bool.and_eq_true] at h
      rcases List.mem_cons.mp hs with hs | hs
      · cases hs
        exact h.1
      · exact ih h.2 s hs

theorem isProper_of_mem_lexemes {ps : List Piece} (h : ∀ s, layout s ∈ ps → isLayout s = true)
    {p : Piece} (hp : p ∈ ps) {l : Lexeme} (hl : l ∈ p.lexemes) : l.isProper = true := by
  cases p with
  | token kind =>
    cases List.mem_singleton.mp hl
    rfl
  | layout s =>
    have hs := h s hp
    simp only [isLayout, Bool.and_eq_true, List.all_eq_true] at hs
    have hspace := hs.1 l hl
    cases l with
    | fault => cases hspace
    | _ => rfl

end Piece

/-- The pieces are read one by one. -/
theorem lexemes_textOf {ps : List Piece} (h : Piece.apart ps = true) :
    lexemes (Piece.textOf ps).toList = ps.flatMap Piece.lexemes := by
  induction ps with
  | nil => rfl
  | cons p ps ih =>
    rw [Piece.toList_textOf_cons, List.flatMap_cons]
    cases p with
    | token kind =>
      simp only [Piece.apart, Bool.and_eq_true] at h
      obtain ⟨⟨hplain, hstops⟩, hps⟩ := h
      rw [← Piece.head?_textOf] at hstops
      obtain ⟨c, cs, htext, hnext⟩ := Lexeme.next_of_isPlain hplain hstops
      change lexemes (kind.text.toList ++ _) = _
      rw [htext, List.cons_append, lexemes_cons, hnext, ih hps]
      rfl
    | layout s =>
      simp only [Piece.apart, Piece.isLayout, Bool.and_eq_true, Bool.or_eq_true,
        List.all_eq_true, beq_iff_eq] at h
      rw [← ih h.2]
      exact lexemes_append_of_isSpace h.1.1 h.1.2 _

/-! ### Tokens and semicolons -/

namespace Lexeme

/-- Whether a line ends with the lexeme or inside it. -/
def endsLine : Lexeme → Bool
  | .newline => true
  | .comment text => text.take 2 == ['/', '*'] && text.contains '\n'
  | .blank _ | .token _ | .fault .. => false

/-- The kinds of the tokens of some lexemes, with the semicolons at line ends. -/
def kindsFrom : (ends : Bool) → List Lexeme → List TokenKind
  | _, [] => []
  | _, .token kind :: ls => kind :: kindsFrom kind.endsStatement ls
  | ends, l :: ls =>
    if ends && l.endsLine then .punct .semi :: kindsFrom false ls else kindsFrom ends ls

theorem kindsFrom_append_of_isSpace {ls : List Lexeme} (h : ∀ l ∈ ls, l.isSpace = true)
    (ends : Bool) (ms : List Lexeme) :
    kindsFrom ends (ls ++ ms) =
      if ends && ls.any endsLine then .punct .semi :: kindsFrom false ms
      else kindsFrom ends ms := by
  induction ls generalizing ends with
  | nil => simp
  | cons l ls ih =>
    obtain ⟨hl, hls⟩ := List.forall_mem_cons.mp h
    have hstep : kindsFrom ends (l :: (ls ++ ms)) =
        if ends && l.endsLine then .punct .semi :: kindsFrom false (ls ++ ms)
        else kindsFrom ends (ls ++ ms) := by
      cases l <;> first | rfl | cases hl
    rw [List.cons_append, hstep, ih hls, ih hls, List.any_cons]
    cases ends <;> cases l.endsLine <;> simp

/-- A newline in white space and comments ends a line. -/
theorem any_endsLine_lexemes {cs : List Char}
    (h : ∀ l ∈ ServiceSplit.lexemes cs, l.isSpace = true) :
    (ServiceSplit.lexemes cs).any endsLine = cs.contains '\n' := by
  have hregular : ∀ l ∈ ServiceSplit.lexemes cs, l.Regular :=
    regular_of_mem_lexemesFrom (List.forall_mem_nil _)
  have hmem : ∀ l : Lexeme, l.isSpace = true → l.Regular →
      (l.endsLine = true ↔ '\n' ∈ l.text) := by
    intro l hspace hregular
    cases l with
    | newline => simp [endsLine, text]
    | blank c => simpa [endsLine, text] using hregular.2.symm
    | comment t =>
      simp only [endsLine, text, Bool.and_eq_true, beq_iff_eq, List.contains_iff_mem]
      exact ⟨And.right, fun h => ⟨hregular h, h⟩⟩
    | token | fault => cases hspace
  rw [Bool.eq_iff_iff, List.any_eq_true, List.contains_iff_mem]
  nth_rewrite 2 [← lexemes_text cs]
  rw [List.mem_flatMap]
  constructor
  · rintro ⟨l, hl, hends⟩
    exact ⟨l, hl, (hmem l (h l hl) (hregular l hl)).mp hends⟩
  · rintro ⟨l, hl, hline⟩
    exact ⟨l, hl, (hmem l (h l hl) (hregular l hl)).mpr hline⟩

end Lexeme

/-- Read as lexemes, the pieces have the same kinds. -/
theorem kindsFrom_flatMap_lexemes {ps : List Piece}
    (h : ∀ s, Piece.layout s ∈ ps → Piece.isLayout s = true) (ends : Bool) :
    Lexeme.kindsFrom ends (ps.flatMap Piece.lexemes) = Piece.kindsFrom ends ps := by
  induction ps generalizing ends with
  | nil => rfl
  | cons p ps ih =>
    have hps := ih fun s hs => h s (List.mem_cons_of_mem _ hs)
    rw [List.flatMap_cons]
    cases p with
    | token kind => exact congrArg (kind :: ·) (hps _)
    | layout s =>
      have hs := h s List.mem_cons_self
      simp only [Piece.isLayout, Bool.and_eq_true, List.all_eq_true] at hs
      rw [Piece.lexemes, Lexeme.kindsFrom_append_of_isSpace hs.1,
        Lexeme.any_endsLine_lexemes hs.1, hps, hps]
      rfl

namespace Scan

/-- Whether the last token ends a statement. -/
def ends (s : Scan) : Bool :=
  s.tokens.head?.any (·.kind.endsStatement)

/-- The kinds of the tokens read so far, the first one first. -/
def kinds (s : Scan) : List TokenKind :=
  s.tokens.reverse.map Token.kind

theorem kinds_endLine (s : Scan) :
    s.endLine.kinds = s.kinds ++ if s.ends then [.punct .semi] else [] := by
  rw [endLine_eq, kinds, lineEnded]
  change List.map _ (List.reverse (if s.ends then _ else _)) = _
  split <;> simp [kinds]

theorem ends_endLine (s : Scan) : s.endLine.ends = false := by
  rw [endLine_eq, ends, lineEnded]
  split
  · rfl
  · rename_i h
    simpa using h

/-- Reading white space or a comment: a line that ends with it adds its semicolon. -/
theorem add_of_isSpace {l : Lexeme} (hl : l.isSpace = true) (s : Scan) :
    (s.add l).kinds = s.kinds ++ (if s.ends && l.endsLine then [.punct .semi] else []) ∧
      (s.add l).ends = (s.ends && !l.endsLine) := by
  obtain ⟨t, htokens, hadd⟩ : ∃ t : Scan, t.tokens = s.tokens ∧
      (s.add l).tokens = (if l.endsLine then t.endLine else t).tokens := by
    cases l with
    | newline => exact ⟨s, rfl, rfl⟩
    | blank c => exact ⟨s, rfl, rfl⟩
    | comment text => exact ⟨{ s with offset := _, comments := _ :: s.comments }, rfl, rfl⟩
    | token | fault => cases hl
  have hkinds : t.kinds = s.kinds := by rw [kinds, htokens, kinds]
  have hends : t.ends = s.ends := by rw [ends, htokens, ends]
  have hadd' : (s.add l).kinds = (if l.endsLine then t.endLine else t).kinds ∧
      (s.add l).ends = (if l.endsLine then t.endLine else t).ends := by
    simp only [kinds, ends, hadd, and_self]
  cases hline : l.endsLine with
  | true => simp [hadd', hline, kinds_endLine, ends_endLine, hkinds, hends]
  | false => simp [hadd', hline, hkinds, hends]

/-- Reading lexemes that are in order adds the kinds of their tokens. -/
theorem foldl_add_kinds {ls : List Lexeme} (h : ∀ l ∈ ls, l.isProper = true) (s : Scan) :
    (ls.foldl Scan.add s).kinds = s.kinds ++ Lexeme.kindsFrom s.ends ls := by
  induction ls generalizing s with
  | nil => simp [Lexeme.kindsFrom]
  | cons l ls ih =>
    obtain ⟨hl, hls⟩ := List.forall_mem_cons.mp h
    rw [List.foldl_cons, ih hls]
    cases hspace : l.isSpace with
    | true =>
      obtain ⟨hk, he⟩ := add_of_isSpace hspace s
      have hone : ∀ m ∈ [l], m.isSpace = true := by simpa using hspace
      have hstep := Lexeme.kindsFrom_append_of_isSpace hone s.ends ls
      rw [List.singleton_append, List.any_cons, List.any_nil, Bool.or_false] at hstep
      rw [hk, he, hstep]
      cases s.ends <;> cases l.endsLine <;> simp
    | false =>
      cases l with
      | token kind =>
        have hk : (s.add (.token kind)).kinds = s.kinds ++ [kind] := by simp [add, push, kinds]
        rw [hk, List.append_assoc]
        rfl
      | fault => cases hl
      | newline | blank | comment => cases hspace

/-- The kinds of the tokens at the end of the text. -/
theorem kinds_finish (s : Scan) :
    s.finish.tokens.reverse.map Token.kind =
      s.kinds ++ (if s.ends then [.punct .semi] else []) ++ [.eof] := by
  rw [← kinds_endLine]
  simp [finish, push, kinds]

end Scan

/-- The tokens of a text whose lexemes are in order: a semicolon follows at the end of the text, as
at the end of a line. -/
theorem scan_of_isProper {source : List Char} (h : ∀ l ∈ lexemes source, l.isProper = true) :
    ∃ tokens comments, scan source = .ok (tokens, comments) ∧
      tokens.map Token.kind = Lexeme.kindsFrom false (lexemes source ++ [.newline]) ++ [.eof] := by
  have hproper : ∀ l ∈ lexemes source ++ [.newline], l.isProper = true := by
    simpa [or_imp, forall_and, Lexeme.isProper] using h
  have hkinds := Scan.foldl_add_kinds hproper {}
  have hnone : ((lexemes source).foldl Scan.add {}).finish.errors = [] :=
    (Scan.finish_errors _).trans ((Scan.errors_eq_nil_iff {} _).mpr ⟨rfl, h⟩)
  refine ⟨_, _, if_pos (List.isEmpty_iff.mpr hnone), ?_⟩
  rw [Scan.kinds_finish, ← Scan.kinds_endLine]
  rw [List.foldl_append] at hkinds
  exact congrArg (· ++ [TokenKind.eof]) hkinds

/-- The tokens of the text of pieces: a semicolon follows at the end of the text, as at the end of a
line. -/
theorem scan_textOf {ps : List Piece} (h : Piece.apart ps = true) :
    ∃ tokens comments, scan (Piece.textOf ps).toList = .ok (tokens, comments) ∧
      tokens.map Token.kind = Piece.kindsFrom false (ps ++ [Piece.newline]) ++ [.eof] := by
  have hlexemes := lexemes_textOf h
  have hproper : ∀ l ∈ lexemes (Piece.textOf ps).toList, l.isProper = true := by
    rw [hlexemes]
    intro l hl
    obtain ⟨p, hp, hl⟩ := List.mem_flatMap.mp hl
    exact Piece.isProper_of_mem_lexemes (Piece.isLayout_of_apart h) hp hl
  have hlayout : ∀ s, Piece.layout s ∈ ps ++ [Piece.newline] → Piece.isLayout s = true := by
    intro s hs
    rcases List.mem_append.mp hs with hs | hs
    · exact Piece.isLayout_of_apart h s hs
    · cases List.mem_singleton.mp hs
      decide
  obtain ⟨tokens, comments, hscan, hkinds⟩ := scan_of_isProper hproper
  refine ⟨tokens, comments, hscan, ?_⟩
  have hnewline : ps.flatMap Piece.lexemes ++ [.newline] =
      (ps ++ [Piece.newline]).flatMap Piece.lexemes := by
    rw [List.flatMap_append]
    rfl
  rw [hkinds, hlexemes, hnewline, kindsFrom_flatMap_lexemes hlayout]

end ServiceSplit
