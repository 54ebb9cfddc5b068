import DomainAtlas.Proofs.Token.Scan
import DomainAtlas.Proofs.Token.Spans

/-! # Literals as written

A text that is written between quotes is one token again, wherever it stands and whatever comes after it: reading goes
on right behind the closing quote.
-/
set_option autoImplicit false

namespace DomainAtlas

open Text

theorem lex_of_lexeme {c : Char} {cs slice rest : List Char} {content : Content}
    (h : Reading.ofChars c cs = .lexeme content slice rest) (start : Nat) :
    lex start (c :: cs) =
      .lexeme ⟨content, .ofBounds start (start + byteLength slice)⟩ :: lex (start + byteLength slice) rest := by
  rw [lex, h]
  rfl

theorem byteLength_quoteChars (text : String) :
    byteLength (Quoted.quoteChars text.toList) = (Quoted.quote text).utf8ByteSize := by
  rw [utf8ByteSize_eq_byteLength, Quoted.quote, String.toList_ofList]

/-- The token of a written text is the first one and spans just what was written. It contains no line break, so that
what follows starts on the line on which the text was opened. -/
theorem lex_quote_append (text following : String) (start : Nat) :
    (∃ span : Span, lex start (Quoted.quote text ++ following).toList =
        .lexeme ⟨.token (.string text), span⟩ :: lex (start + (Quoted.quote text).utf8ByteSize) following.toList ∧
      span.start = start ∧ span.stop = start + (Quoted.quote text).utf8ByteSize) ∧
    ∀ c ∈ (Quoted.quote text).toList, c ≠ '\n' ∧ c ≠ '\r' := by
  refine ⟨⟨.ofBounds start (start + (Quoted.quote text).utf8ByteSize), ?_, rfl, ?_⟩,
    fun c => Quoted.not_break_of_mem_quote⟩
  · rw [String.toList_append, toList_quote_append, lex_of_lexeme (ofChars_quoteChars text following.toList),
      byteLength_quoteChars]
  · exact Nat.max_eq_left (Nat.le_add_right _ _)

/-- Backslashes and quotes at the end of a text do not run into the quotes around it. -/
example : Quoted.quote "a\\\"" = "\"a\\\\\\\"\"" := by decide

end DomainAtlas
