import ServiceSplit.Proofs.Printer.Pieces
import ServiceSplit.Proofs.Text.Quoted

/-!
# Literals in a source text

The scanner passes over a character behind a backslash and ends a literal at any other quote. In the
literal of a text backslashes and quotes are paired in such a way that the only such quote is the
last one.
-/

namespace ServiceSplit

namespace Lexeme

/-- Inside a literal the scanner passes over the written form of any text, and stops at the quote
behind it. -/
theorem closeQuote_escape (seen cs rest : List Char) :
    closeQuote '"' seen (cs.flatMap Text.escape ++ '"' :: rest) =
      (true, seen.reverse ++ cs.flatMap Text.escape ++ ['"'], rest) := by
  -- The scanner is between two characters of the text whenever it has read `seen`.
  induction cs generalizing seen with
  | nil => simp [closeQuote_cons]
  | cons c cs ih =>
    rw [List.flatMap_cons, List.append_assoc]
    rcases Text.escape_cases c with ⟨hc, hquote, hbackslash, hnewline⟩ | ⟨d, hc, -⟩
    · rw [hc, List.singleton_append, closeQuote_cons hbackslash, if_neg hnewline, if_neg hquote, ih]
      simp
    · rw [hc, List.cons_append, List.singleton_append, closeQuote, ih]
      simp

/-- The literal of a text is one token. -/
theorem quoted_quote (text : String) (rest : List Char) :
    quoted '"' .string .unterminatedString ((Text.quote text).toList.tail ++ rest) =
      (token (.literal .string (Text.quote text)), rest) := by
  have htext : Text.quote text =
      String.ofList (['"'].reverse ++ text.toList.flatMap Text.escape ++ ['"']) := rfl
  rw [Text.toList_quote, List.tail_cons, List.append_assoc, quoted, List.singleton_append,
    closeQuote_escape, htext]

theorem lexemes_quote (text : String) (rest : List Char) :
    lexemes ((Text.quote text).toList ++ rest) =
      token (.literal .string (Text.quote text)) :: lexemes rest := by
  have hread := quoted_quote text rest
  rw [Text.toList_quote, List.tail_cons] at hread
  have hnext : ∀ cs, next '"' cs = quoted '"' .string .unterminatedString cs := fun _ => rfl
  rw [Text.toList_quote, List.cons_append, lexemes_cons, hnext, hread]

end Lexeme

/-- The literal of any text is read without an error, as one token over exactly its bytes, whatever
stands behind it. To undo its escapes gives the text back; so texts have different literals, and
none of them ends where another one goes on. -/
theorem literal_readsWhole (text : String) (rest : List Char) (s : Scan) :
    let literal := Text.quote text
    let stop := s.offset + Text.byteSize literal.toList
    let read := Lexeme.quoted '"' .string .unterminatedString (literal.toList.tail ++ rest)
    literal.toList.head? = some '"' ∧
      read.2 = rest ∧
      s.add read.1 =
        { s with
          offset := stop
          tokens := ⟨.literal .string literal, s.offset, stop⟩ :: s.tokens } ∧
      lexemes (literal.toList ++ rest) = read.1 :: lexemes rest ∧
      Text.readLiteral literal.toList.tail = some (text.toList, []) ∧
      Function.Injective Text.quote ∧
      ∀ other back, literal.toList ++ rest = (Text.quote other).toList ++ back →
        text = other ∧ rest = back := by
  dsimp only
  rw [Lexeme.quoted_quote]
  refine ⟨?_, rfl, rfl, Lexeme.lexemes_quote text rest, ?_, Text.quote_injective, ?_⟩
  · rw [Text.toList_quote, List.head?_cons]
  · rw [Text.toList_quote, List.tail_cons]
    exact Text.readLiteral_escape text.toList []
  · exact fun _ _ => Text.quote_append_inj

end ServiceSplit
