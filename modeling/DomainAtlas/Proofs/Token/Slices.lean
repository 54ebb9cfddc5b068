import DomainAtlas.Proofs.Token.Scan

/-! # How lexemes are written

What is read as a lexeme is written in one of eight ways. Where no comment can start, nothing but blanks stands
between the tokens of a text.
-/
set_option autoImplicit false

namespace DomainAtlas

open Text

/-- The ways to write what a lexeme says. -/
inductive Content.WrittenAs : Content → List Char → Prop
  | lineComment (text : List Char) :
      WrittenAs (.trivia (.lineComment (String.ofList text))) ('/' :: '/' :: text)
  | blockComment (text : List Char) :
      WrittenAs (.trivia (.blockComment (String.ofList text))) ('/' :: '*' :: (text ++ ['*', '/']))
  | string (value : String) (written : List Char) : WrittenAs (.token (.string value)) ('"' :: written)
  | escaped {run : List Char} (h : isWordChars run = true) :
      WrittenAs (.token (.name (String.ofList run))) ('^' :: run)
  | word {run : List Char} (h : isWordChars run = true) :
      WrittenAs (.token (Reading.tokenOfWord (String.ofList run))) run
  | symbol (s : Symbol) : WrittenAs (.token (.symbol s)) s.text.toList
  | newline : WrittenAs (.trivia .newline) ['\n']
  | blank {run : List Char} (h : ∀ c ∈ run, Reading.isInnerBlank c = true) : WrittenAs (.trivia .blank) run

theorem skippingWord_ne_lexeme (fault : Fault) (lead culprit after : List Char) (content : Content)
    (slice rest : List Char) : Reading.skippingWord fault lead culprit after ≠ .lexeme content slice rest := by
  intro h
  unfold Reading.skippingWord at h
  split at h <;> cases h

theorem skippingString_ne_lexeme (fault : Fault) (lead culprit after : List Char) (content : Content)
    (slice rest : List Char) : Reading.skippingString fault lead culprit after ≠ .lexeme content slice rest := by
  intro h
  dsimp only [Reading.skippingString] at h
  split at h <;> cases h

namespace Reading

variable {c : Char} {cs slice rest : List Char} {content : Content}

theorem writtenAs_of_blockComment (h : blockComment cs = .lexeme content slice rest) : content.WrittenAs slice := by
  unfold blockComment at h
  split at h
  · cases h
    exact .blockComment _
  · exact absurd h (skippingWord_ne_lexeme _ _ _ _ _ _ _)

theorem writtenAs_of_quoted (h : quoted cs = .lexeme content slice rest) : content.WrittenAs slice := by
  unfold quoted at h
  split at h
  · cases h
    exact .string _ _
  · exact absurd h (skippingWord_ne_lexeme _ _ _ _ _ _ _)
  · exact absurd h (skippingString_ne_lexeme _ _ _ _ _ _ _)

theorem writtenAs_of_escaped (h : escaped cs = .lexeme content slice rest) : content.WrittenAs slice := by
  unfold escaped at h
  split at h
  split at h
  · rename_i hWord
    cases h
    exact .escaped hWord
  · exact absurd h (skippingWord_ne_lexeme _ _ _ _ _ _ _)

theorem writtenAs_of_word (hStart : isWordStart c = true) (h : word (c :: cs) = .lexeme content slice rest) :
    content.WrittenAs slice := by
  cases h
  refine .word ?_
  rw [List.takeWhile_cons_of_pos (isWordChar_of_isWordStart hStart), isWordChars, hStart, Bool.true_and,
    List.all_takeWhile]

theorem writtenAs_of_plain (h : plain c cs = .lexeme content slice rest) : content.WrittenAs slice := by
  unfold plain unexpected at h
  split at h
  · cases h
    exact .symbol _
  · split at h
    · cases h
      exact .newline
    · split at h
      · rename_i hNewline hBlank
        cases h
        refine .blank (List.forall_mem_cons.mpr ⟨?_, List.all_eq_true.mp List.all_takeWhile⟩)
        simpa [isInnerBlank, hBlank] using hNewline
      · split at h <;> cases h

theorem writtenAs_of_ofChars (h : ofChars c cs = .lexeme content slice rest) : content.WrittenAs slice := by
  unfold ofChars at h
  split at h
  · cases h
    exact .lineComment _
  · split at h
    · exact writtenAs_of_blockComment h
    · split at h
      · exact writtenAs_of_quoted h
      · split at h
        · exact writtenAs_of_escaped h
        · split at h
          · rename_i hStart
            exact writtenAs_of_word hStart h
          · exact writtenAs_of_plain h

theorem append_of_ofChars (h : ofChars c cs = .lexeme content slice rest) : slice ++ rest = c :: cs := by
  rw [← text_ofChars c cs, h, text_lexeme]

end Reading

/-! ## Tokens between blanks -/

theorem name_of_tokenOfWord {w n : String} (h : Reading.tokenOfWord w = .name n) : w = n := by
  unfold Reading.tokenOfWord at h
  split at h <;> cases h
  rfl

theorem slice_of_name {n : String} {slice : List Char} (h : (Content.token (.name n)).WrittenAs slice) :
    (slice = n.toList ∨ slice = '^' :: n.toList) ∧ isWord n = true := by
  generalize hContent : Content.token (.name n) = content at h
  cases h with
  | escaped hRun =>
    cases hContent
    rw [isWord, String.toList_ofList]
    exact ⟨.inr rfl, hRun⟩
  | word hRun =>
    obtain rfl := name_of_tokenOfWord (Content.token.inj hContent).symm
    rw [isWord, String.toList_ofList]
    exact ⟨.inl rfl, hRun⟩
  | _ => cases hContent

theorem slice_of_symbol {s : Symbol} {slice : List Char} (h : (Content.token (.symbol s)).WrittenAs slice) :
    slice = s.text.toList := by
  generalize hContent : Content.token (.symbol s) = content at h
  cases h with
  | symbol =>
    cases hContent
    rfl
  | word =>
    have hToken := Content.token.inj hContent
    unfold Reading.tokenOfWord at hToken
    split at hToken <;> cases hToken
  | _ => cases hContent

theorem isBlank_of_writtenAs {trivia : Trivia} {slice : List Char} (h : (Content.trivia trivia).WrittenAs slice)
    (hSlash : '/' ∉ slice) : ∀ c ∈ slice, isBlank c = true := by
  cases h with
  | lineComment => exact absurd List.mem_cons_self hSlash
  | blockComment => exact absurd List.mem_cons_self hSlash
  | newline =>
    intro c hc
    rw [List.mem_singleton.mp hc]
    decide
  | blank h =>
    intro c hc
    exact (Bool.and_eq_true_iff.mp (h c hc)).1

theorem Scans.isBlank_of_nil {cs : List Char} (h : Scans cs []) (hSlash : '/' ∉ cs) : ∀ c ∈ cs, isBlank c = true := by
  generalize hTokens : [] = tokens at h
  induction h with
  | nil => exact fun _ hMem => absurd hMem List.not_mem_nil
  | token _ _ => cases hTokens
  | trivia hReading _ ih =>
    have hSplit := Reading.append_of_ofChars hReading
    rw [← hSplit, List.mem_append, not_or] at hSlash
    rw [← hSplit, List.forall_mem_append]
    exact ⟨isBlank_of_writtenAs (Reading.writtenAs_of_ofChars hReading) hSlash.1, ih hSlash.2 hTokens⟩

/-- The first token of a text, with what stands before it and behind it. -/
theorem Scans.exists_first {cs : List Char} {t : Token} {others : List Token} (h : Scans cs (t :: others))
    (hSlash : '/' ∉ cs) :
    ∃ front slice rest, cs = front ++ (slice ++ rest) ∧ (∀ c ∈ front, isBlank c = true) ∧
      (Content.token t).WrittenAs slice ∧ Scans rest others := by
  generalize hTokens : t :: others = tokens at h
  induction h with
  | nil => cases hTokens
  | token hReading hRest _ =>
    cases hTokens
    exact ⟨[], _, _, (Reading.append_of_ofChars hReading).symm, fun _ hMem => absurd hMem List.not_mem_nil,
      Reading.writtenAs_of_ofChars hReading, hRest⟩
  | @trivia _ _ lead _ _ _ hReading _ ih =>
    have hSplit := Reading.append_of_ofChars hReading
    rw [← hSplit, List.mem_append, not_or] at hSlash
    obtain ⟨front, slice, rest, hEq, hFront, hSlice, hRest⟩ := ih hSlash.2 hTokens
    refine ⟨lead ++ front, slice, rest, ?_, ?_, hSlice, hRest⟩
    · rw [← hSplit, hEq, List.append_assoc]
    · exact List.forall_mem_append.mpr
        ⟨isBlank_of_writtenAs (Reading.writtenAs_of_ofChars hReading) hSlash.1, hFront⟩

end DomainAtlas
