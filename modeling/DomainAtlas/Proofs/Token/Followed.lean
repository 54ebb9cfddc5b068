import DomainAtlas.Proofs.Token.Slices

/-! # Texts that go on

What is read of a text is read of it as well when more text stands behind it, as long as the last lexeme of the text
ends there. Before a space all of them do but blanks and a comment that goes on to the end of the line.
-/
set_option autoImplicit false

namespace DomainAtlas

open Text

def Content.isLineComment : Content → Bool
  | .trivia (.lineComment _) => true
  | _ => false

def Piece.isLineComment : Piece → Bool
  | lexeme l => l.value.isLineComment
  | fault _ _ => false

/-- The last of the pieces is a comment that the end of the line would close. -/
def endsOpen (pieces : List Piece) : Bool :=
  pieces.getLast?.any Piece.isLineComment

def endsInComment (text : String) : Bool :=
  endsOpen (lex 0 text.toList)

/-! ## One lexeme -/

/-- Where nothing is left behind a lexeme, a space stands in front of what follows. -/
def Apart (rest more : List Char) : Prop :=
  rest = [] → more.head? = some ' '

section Apart

variable {cs rest more : List Char}

theorem apart_of_ne_nil (h : rest ≠ []) : Apart rest more :=
  fun hNil => absurd hNil h

theorem head?_append_apart {c : Char} (h : Apart cs more) (hc : c ≠ ' ') :
    (cs ++ more).head? = some c ↔ cs.head? = some c := by
  cases cs with
  | nil => simp [h rfl, Ne.symm hc]
  | cons d ds => rfl

theorem EndsWord.append (h : EndsWord rest) (hApart : Apart rest more) : EndsWord (rest ++ more) := by
  cases rest with
  | nil =>
    intro c hc
    obtain rfl : ' ' = c := by simpa [hApart rfl] using hc
    decide
  | cons d ds => exact h

theorem endsWord_dropWhile (cs : List Char) : EndsWord (cs.dropWhile isWordChar) := by
  intro c hc
  have hHead := List.head?_dropWhile_not isWordChar cs
  rw [Option.mem_def.mp hc] at hHead
  simpa using hHead

theorem spanWord_apart (h : Apart (cs.dropWhile isWordChar) more) :
    spanWord (cs ++ more) = (cs.takeWhile isWordChar, cs.dropWhile isWordChar ++ more) := by
  have hAll : ∀ c ∈ cs.takeWhile isWordChar, isWordChar c = true := List.all_eq_true.mp List.all_takeWhile
  have hSpan := spanWord_append hAll ((endsWord_dropWhile cs).append h)
  rwa [← List.append_assoc, List.takeWhile_append_dropWhile] at hSpan

theorem Symbol.Ends.append {s : Symbol} (h : s.Ends rest) (hApart : Apart rest more) : s.Ends (rest ++ more) := by
  cases rest with
  | nil => cases s <;> simp [Symbol.Ends, hApart rfl]
  | cons d ds => exact h

theorem ends_of_atFront? {s : Symbol} (h : Symbol.atFront? (s.text.toList ++ rest) = some s) : s.Ends rest := by
  cases s
  case dash | leftArrow | lessThan =>
    intro hHead
    obtain ⟨others, rfl⟩ := List.head?_eq_some_iff.mp hHead
    cases hLonger : ['>'].isPrefixOf others <;>
      simp [Symbol.atFront?, Symbol.all, Symbol.text, List.find?, List.isPrefixOf, hLonger] at h
  all_goals trivial

theorem takeWhile_append_of_dropWhile {p : Char → Bool} (h : cs.dropWhile p ≠ []) :
    (cs ++ more).takeWhile p = cs.takeWhile p := by
  have hLength := congrArg List.length (@List.takeWhile_append_dropWhile _ p cs)
  have hRestLength := List.length_pos_iff.mpr h
  rw [List.length_append] at hLength
  rw [List.takeWhile_append, if_neg (by omega)]

theorem dropWhile_append_of_dropWhile {p : Char → Bool} (h : cs.dropWhile p ≠ []) :
    (cs ++ more).dropWhile p = cs.dropWhile p ++ more := by
  rw [List.dropWhile_append, if_neg (by simpa using h)]

end Apart

/-- Blanks and comments to the end of the line take in what follows them; other lexemes do not. -/
def Content.Closed : Content → Prop
  | .trivia .blank => False
  | .trivia (.lineComment _) => False
  | _ => True

namespace Reading

variable {c : Char} {cs slice rest more : List Char} {content : Content}

theorem splitAtClose?_append {text : List Char} (h : splitAtClose? cs = some (text, rest)) :
    splitAtClose? (cs ++ more) = some (text, rest ++ more) := by
  induction cs generalizing text with
  | nil => cases h
  | cons c cs ih =>
    cases cs with
    | nil => simp [splitAtClose?] at h
    | cons d cs =>
      have hHead : (d :: cs ++ more).head? = (d :: cs).head? := rfl
      rw [splitAtClose?] at h
      rw [List.cons_append, splitAtClose?, hHead]
      by_cases hClose : c = '*' ∧ (d :: cs).head? = some '/'
      · rw [if_pos hClose] at h ⊢
        cases h
        rfl
      · rw [if_neg hClose] at h ⊢
        obtain ⟨halves, hHalves, hEq⟩ := Option.map_eq_some_iff.mp h
        cases hEq
        rw [ih hHalves]
        rfl

theorem readBody_append {value written : List Char} (h : Quoted.readBody cs = .closed value written rest) :
    Quoted.readBody (cs ++ more) = .closed value written (rest ++ more) := by
  obtain ⟨body, hMeans, rfl, rfl⟩ := Quoted.means_of_readBody h
  rw [List.append_assoc, List.cons_append]
  exact hMeans.readBody (rest ++ more)

theorem lineComment_append (hRest : rest ≠ []) (h : lineComment cs = .lexeme content slice rest) :
    lineComment (cs ++ more) = .lexeme content slice (rest ++ more) := by
  cases h
  rw [lineComment, takeWhile_append_of_dropWhile hRest, dropWhile_append_of_dropWhile hRest]

theorem blockComment_append (h : blockComment cs = .lexeme content slice rest) :
    blockComment (cs ++ more) = .lexeme content slice (rest ++ more) := by
  unfold blockComment at h
  split at h
  · rename_i hClose
    cases h
    rw [blockComment, splitAtClose?_append hClose]
  · exact absurd h (skippingWord_ne_lexeme _ _ _ _ _ _ _)

theorem quoted_append (h : quoted cs = .lexeme content slice rest) :
    quoted (cs ++ more) = .lexeme content slice (rest ++ more) := by
  unfold quoted at h
  split at h
  · rename_i hBody
    cases h
    rw [quoted, readBody_append hBody]
  · exact absurd h (skippingWord_ne_lexeme _ _ _ _ _ _ _)
  · exact absurd h (skippingString_ne_lexeme _ _ _ _ _ _ _)

theorem escaped_append (hApart : Apart rest more) (h : escaped cs = .lexeme content slice rest) :
    escaped (cs ++ more) = .lexeme content slice (rest ++ more) := by
  rw [escaped, spanWord] at h
  dsimp only at h
  split at h
  · rename_i hWord
    cases h
    rw [escaped, spanWord_apart hApart]
    exact if_pos hWord
  · exact absurd h (skippingWord_ne_lexeme _ _ _ _ _ _ _)

theorem word_append (hApart : Apart rest more) (h : word cs = .lexeme content slice rest) :
    word (cs ++ more) = .lexeme content slice (rest ++ more) := by
  cases h
  rw [word, spanWord_apart hApart]

theorem plain_append (hApart : Apart rest more) (hClosed : rest = [] → content.Closed)
    (h : plain c cs = .lexeme content slice rest) :
    plain c (cs ++ more) = .lexeme content slice (rest ++ more) := by
  unfold plain at h
  split at h
  · rename_i s hFront
    cases h
    have hSplit := Symbol.append_drop_of_atFront? hFront
    rw [← hSplit] at hFront
    have hFollowed := atFront?_append s ((ends_of_atFront? hFront).append hApart)
    rw [← List.append_assoc, hSplit] at hFollowed
    have hLength : s.text.toList.length ≤ (c :: cs).length := by
      rw [← hSplit, List.length_append]
      exact Nat.le_add_right _ _
    rw [plain, ← List.cons_append, hFollowed]
    simp only [List.drop_append_of_le_length hLength]
  · split at h
    · rename_i hNewline
      cases h
      have hBlank : isBlank '\n' = true := by decide
      rw [plain, hNewline, atFront?_of_isBlank (cs ++ more) hBlank]
      rfl
    · split at h
      · rename_i hNewline hBlank
        cases h
        have hRest : cs.dropWhile isInnerBlank ≠ [] := hClosed
        rw [plain, atFront?_of_isBlank (cs ++ more) hBlank, takeWhile_append_of_dropWhile hRest,
          dropWhile_append_of_dropWhile hRest]
        dsimp only
        rw [if_neg hNewline, if_pos hBlank]
      · unfold unexpected at h
        split at h <;> cases h

/-- The lexeme at the front of a text stays as it is when more text follows. -/
theorem ofChars_append (hApart : Apart rest more) (hClosed : rest = [] → content.Closed)
    (h : ofChars c cs = .lexeme content slice rest) :
    ofChars c (cs ++ more) = .lexeme content slice (rest ++ more) := by
  have hSlash : '/' ≠ ' ' := by decide
  have hStar : '*' ≠ ' ' := by decide
  have hFront : Apart cs more := by
    rintro rfl
    have hLength := length_rest_ofChars_lt c []
    rw [h] at hLength
    exact hApart (List.length_eq_zero_iff.mp (Nat.lt_one_iff.mp hLength))
  have hTail {d : Char} (hHead : cs.head? = some d) : (cs ++ more).tail = cs.tail ++ more := by
    obtain ⟨others, rfl⟩ := List.head?_eq_some_iff.mp hHead
    rfl
  unfold ofChars at h ⊢
  simp only [head?_append_apart hFront hSlash, head?_append_apart hFront hStar]
  split at h
  · rename_i hMark
    rw [if_pos hMark, hTail hMark.2]
    refine lineComment_append ?_ h
    cases h
    exact hClosed
  · rename_i hNoLine
    rw [if_neg hNoLine]
    split at h
    · rename_i hMark
      rw [if_pos hMark, hTail hMark.2]
      exact blockComment_append h
    · rename_i hNoBlock
      rw [if_neg hNoBlock]
      split at h
      · rename_i hQuote
        rw [if_pos hQuote]
        exact quoted_append h
      · rename_i hNoQuote
        rw [if_neg hNoQuote]
        split at h
        · rename_i hCaret
          rw [if_pos hCaret]
          exact escaped_append hApart h
        · rename_i hNoCaret
          rw [if_neg hNoCaret]
          split at h
          · rename_i hStart
            rw [if_pos hStart]
            exact word_append hApart h
          · rename_i hNoStart
            rw [if_neg hNoStart]
            exact plain_append hApart hClosed h

end Reading

/-! ## Whole texts -/

theorem scans_blanks {blanks rest : List Char} {tokens : List Token}
    (hBlanks : ∀ c ∈ blanks, Reading.isInnerBlank c = true) (h : Scans rest tokens) :
    Scans (blanks ++ rest) tokens := by
  induction blanks with
  | nil => exact h
  | cons c blanks ih =>
    obtain ⟨hFirst, hOthers⟩ := List.forall_mem_cons.mp hBlanks
    have hBoth : isBlank c = true ∧ c ≠ '\n' := by simpa [Reading.isInnerBlank] using hFirst
    exact .trivia (ofChars_of_isBlank (blanks ++ rest) hBoth.1 hBoth.2) (ih hOthers).dropBlanks

theorem isInnerBlank_of_blank {slice : List Char} (h : (Content.trivia .blank).WrittenAs slice) :
    ∀ c ∈ slice, Reading.isInnerBlank c = true := by
  cases h
  assumption

theorem endsOpen_lex {c : Char} {cs slice after : List Char} {content : Content} (start : Nat)
    (h : Reading.ofChars c cs = .lexeme content slice after) :
    endsOpen (lex start (c :: cs)) =
      if after = [] then content.isLineComment else endsOpen (lex (start + byteLength slice) after) := by
  rw [lex, h]
  cases after with
  | nil =>
    rw [Reading.rest, lex]
    rfl
  | cons d ds =>
    rw [if_neg (List.cons_ne_nil d ds), Reading.rest, Reading.consumed, lex]
    rw [endsOpen, endsOpen, List.getLast?_cons_cons]

theorem endsOpen_rest {c : Char} {cs slice after : List Char} {content : Content} {start : Nat}
    (h : Reading.ofChars c cs = .lexeme content slice after) (hEnd : endsOpen (lex start (c :: cs)) = false) :
    endsOpen (lex (start + byteLength slice) after) = false := by
  rw [endsOpen_lex start h] at hEnd
  split at hEnd
  · rename_i hNil
    rw [hNil, lex]
    rfl
  · exact hEnd

/-- A text that no comment ends is read alike when a space and a further text follow it. -/
theorem Scans.append_space {cs : List Char} {tokens : List Token} (h : Scans cs tokens) {start : Nat}
    (hEnd : endsOpen (lex start cs) = false) {rest : List Char} {others : List Token} (hRest : Scans rest others) :
    Scans (cs ++ ' ' :: rest) (tokens ++ others) := by
  have hApart (after : List Char) : Apart after (' ' :: rest) := fun _ => rfl
  induction h generalizing start with
  | nil => exact scans_space hRest
  | token hReading _ ih =>
    exact .token (Reading.ofChars_append (hApart _) (fun _ => trivial) hReading) (ih (endsOpen_rest hReading hEnd))
  | @trivia c cs slice after trivia _ hReading _ ih =>
    have hOthers := ih (endsOpen_rest hReading hEnd)
    have hOpen : after = [] → trivia ≠ .blank → (Content.trivia trivia).Closed := by
      intro hNil hBlank
      rw [endsOpen_lex start hReading, if_pos hNil] at hEnd
      cases trivia with
      | blank => exact absurd rfl hBlank
      | lineComment text => cases hEnd
      | newline => trivial
      | blockComment text => trivial
    by_cases hBlank : trivia = .blank
    · -- the blanks go on into the space, which is read with them
      subst hBlank
      rw [← Reading.append_of_ofChars hReading, List.append_assoc]
      exact scans_blanks (isInnerBlank_of_blank (Reading.writtenAs_of_ofChars hReading)) hOthers
    · have hClosed := fun hNil => hOpen hNil hBlank
      exact .trivia (Reading.ofChars_append (hApart _) hClosed hReading) hOthers

theorem of_lineComment {c : Char} {cs slice after : List Char} {text : String}
    (h : Reading.ofChars c cs = .lexeme (.trivia (.lineComment text)) slice after) :
    ∃ chars, c = '/' ∧ cs = '/' :: (chars ++ after) ∧ ∀ d ∈ chars, (d != '\n') = true := by
  have hSplit := Reading.append_of_ofChars h
  generalize hContent : Content.trivia (.lineComment text) = content at h
  have hWritten := Reading.writtenAs_of_ofChars h
  cases hWritten with
  | lineComment chars =>
    have hCons : '/' :: '/' :: (chars ++ after) = c :: cs := hSplit
    obtain ⟨rfl, rfl⟩ := List.cons.inj hCons
    rw [ofChars_slashes, Reading.lineComment] at h
    have hTake : (chars ++ after).takeWhile (· != '\n') = chars := by
      simpa [Reading.consumed] using congrArg Reading.consumed h
    refine ⟨chars, rfl, rfl, ?_⟩
    rw [← hTake]
    exact List.all_eq_true.mp List.all_takeWhile
  | _ => cases hContent

theorem ofChars_lineComment {chars : List Char} (h : ∀ c ∈ chars, (c != '\n') = true) (rest : List Char) :
    Reading.ofChars '/' ('/' :: (chars ++ '\n' :: rest)) =
      .lexeme (.trivia (.lineComment (String.ofList chars))) ('/' :: '/' :: chars) ('\n' :: rest) := by
  rw [ofChars_slashes, Reading.lineComment, List.takeWhile_append_of_pos h, List.dropWhile_append_of_pos h]
  simp

/-- The comment that ends a text goes on over the rest of the line. -/
theorem Scans.append_comment {cs : List Char} {tokens : List Token} (h : Scans cs tokens) {start : Nat}
    (hEnd : endsOpen (lex start cs) = true) {line : List Char} (hLine : ∀ c ∈ line, (c != '\n') = true)
    {rest : List Char} {others : List Token} (hRest : Scans ('\n' :: rest) others) :
    Scans (cs ++ (line ++ '\n' :: rest)) (tokens ++ others) := by
  have hKept {c : Char} {cs slice after : List Char} {content : Content} (hAfter : after ≠ [])
      (hReading : Reading.ofChars c cs = .lexeme content slice after) :
      Reading.ofChars c (cs ++ (line ++ '\n' :: rest)) = .lexeme content slice (after ++ (line ++ '\n' :: rest)) :=
    Reading.ofChars_append (apart_of_ne_nil hAfter) (fun hNil => absurd hNil hAfter) hReading
  induction h generalizing start with
  | nil =>
    rw [lex] at hEnd
    cases hEnd
  | token hReading _ ih =>
    rw [endsOpen_lex start hReading] at hEnd
    split at hEnd
    · cases hEnd
    · rename_i hAfter
      exact .token (hKept hAfter hReading) (ih hEnd)
  | @trivia c cs slice after trivia _ hReading hScans ih =>
    rw [endsOpen_lex start hReading] at hEnd
    split at hEnd
    · rename_i hNil
      subst hNil
      cases trivia with
      | lineComment text =>
        cases hScans
        obtain ⟨chars, rfl, rfl, hChars⟩ := of_lineComment hReading
        have hComment := ofChars_lineComment (List.forall_mem_append.mpr ⟨hChars, hLine⟩) rest
        rw [List.append_nil]
        rw [List.append_assoc] at hComment
        exact .trivia hComment hRest
      | _ => cases hEnd
    · rename_i hAfter
      exact .trivia (hKept hAfter hReading) (ih hEnd)

end DomainAtlas
