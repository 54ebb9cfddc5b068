import DomainAtlas.Proofs.Token.Longest

/-! # Malformed lexemes

A quoted text with an invalid escape, a comment that is not closed and a caret before no word are reported where they
stand. Reading goes on behind the next quote, or behind the next word or character, which need not be where the
malformed text ends: what is left of it, or what is cut from the text behind it, may be reported as well.
-/
set_option autoImplicit false

namespace DomainAtlas

open Text

/-- A malformed text with what follows it. -/
inductive Malformed : Fault → List Char → List Char → Prop
  | literal {body rest : List Char} (hBody : Quoted.Enclosed body) (hInvalid : ∀ value, ¬ Quoted.Means body value) :
      Malformed .invalidEscape ('"' :: (body ++ ['"'])) rest
  | comment {text : List Char} (hOpen : ¬ ['*', '/'] <:+: text) : Malformed .unterminatedComment ('/' :: '*' :: text) []
  | caret {rest : List Char} : Malformed .danglingEscape ['^'] rest

def Tokenizes (cs : List Char) : Prop :=
  ∃ lexemes, lexemesOf (String.ofList cs) = .ok lexemes

/-- The fault is reported, in the malformed text, and nothing else is. -/
def Sole (fault : Fault) (bad rest : List Char) : Prop :=
  ∃ span : Span, span.Within bad ∧ span.start < span.stop ∧
    lexemesOf (String.ofList (bad ++ rest)) = .error ⟨[fault.diagnostic span]⟩

/-! ## Where reading goes on -/

def behindQuote (cs : List Char) : List Char :=
  (cs.dropWhile (· != '"')).drop 1

/-- What is left behind the word at the front of a text, or behind its first character where there is no word. -/
def behindWord (cs : List Char) : List Char :=
  if cs.takeWhile isWordChar = [] then cs.drop 1 else cs.dropWhile isWordChar

/-- The text at which reading goes on behind the fault of a malformed text. -/
inductive ResumesAt : List Char → List Char → List Char → Prop
  | literal {front value others rest : List Char} {e : Char} (hFront : Quoted.Means front value)
      (hInvalid : Quoted.unescape? e = none) :
      ResumesAt ('"' :: (front ++ '\\' :: e :: others ++ ['"'])) rest (behindQuote (e :: others ++ '"' :: rest))
  | comment {text : List Char} : ResumesAt ('/' :: '*' :: text) [] (behindWord text)
  | caret {rest : List Char} : ResumesAt ['^'] rest (behindWord rest)

/-- There is one such text: the first invalid escape is where reading stops. -/
theorem ResumesAt.unique {bad rest resumed other : List Char} (h : ResumesAt bad rest resumed)
    (hOther : ResumesAt bad rest other) : resumed = other := by
  cases h with
  | @literal front value others _ e hFront hInvalid =>
    generalize hBad : '"' :: (front ++ '\\' :: e :: others ++ ['"']) = bad at hOther
    cases hOther with
    | @literal lead meant more _ d hLead hEscape =>
      -- the body is split in two ways, and reading it finds both
      have hFirst := hFront.readBody_badEscape hInvalid (others ++ '"' :: rest)
      have hSecond := hLead.readBody_badEscape hEscape (more ++ '"' :: rest)
      have hSame := congrArg (· ++ rest) (List.cons.inj hBad).2
      simp only [List.append_assoc, List.cons_append, List.nil_append] at hSame
      rw [hSame, hSecond] at hFirst
      exact congrArg behindQuote (Quoted.Body.badEscape.inj hFirst).2.symm
    | comment => cases hBad
    | caret => cases hBad
  | comment =>
    cases hOther with
    | comment => rfl
  | caret =>
    cases hOther with
    | caret => rfl

theorem skippingWord_eq (fault : Fault) (lead culprit after : List Char) :
    ∃ skipped, Reading.skippingWord fault lead culprit after = .fault fault lead culprit skipped (behindWord after) := by
  unfold Reading.skippingWord
  split
  · rename_i rest hSpan
    have hRun : after.takeWhile isWordChar = [] := congrArg Prod.fst hSpan
    exact ⟨after.take 1, by rw [behindWord, if_pos hRun]⟩
  · rename_i run rest hNe hSpan
    have hRun : after.takeWhile isWordChar = run := congrArg Prod.fst hSpan
    have hRest : after.dropWhile isWordChar = rest := congrArg Prod.snd hSpan
    exact ⟨run, by rw [behindWord, hRun, if_neg hNe, hRest]⟩

theorem dropWhile_line_eq {text : List Char} (h : '\n' ∉ text) (rest : List Char) :
    (text ++ '"' :: rest).dropWhile (fun c => c != '"' && c != '\n') = '"' :: behindQuote (text ++ '"' :: rest) := by
  induction text with
  | nil => rfl
  | cons c text ih =>
    rw [List.mem_cons, not_or] at h
    rw [behindQuote, List.cons_append]
    by_cases hQuote : c = '"'
    · subst hQuote
      rfl
    · have hLine : c ≠ '\n' := fun hEq => h.1 hEq.symm
      rw [List.dropWhile_cons_of_pos (by simp [hQuote, hLine]), List.dropWhile_cons_of_pos (by simp [hQuote])]
      exact ih h.2

theorem skippingString_eq {text : List Char} (h : '\n' ∉ text) (fault : Fault) (lead culprit rest : List Char) :
    ∃ skipped, Reading.skippingString fault lead culprit (text ++ '"' :: rest) =
      .fault fault lead culprit skipped (behindQuote (text ++ '"' :: rest)) := by
  rw [Reading.skippingString, dropWhile_line_eq h]
  exact ⟨_, rfl⟩

theorem splitAtClose?_eq_none {text : List Char} (h : ¬ ['*', '/'] <:+: text) : Reading.splitAtClose? text = none := by
  rw [Option.eq_none_iff_forall_ne_some]
  rintro ⟨front, rest⟩ hClose
  refine h ⟨front, rest, ?_⟩
  rw [List.append_assoc]
  exact Reading.of_splitAtClose?_eq_some text hClose

variable {fault : Fault} {bad rest resumed : List Char}

/-- The first thing that is read of a malformed text is its fault. -/
theorem Malformed.exists_reading (h : Malformed fault bad rest) (hEnds : EndsWord rest) :
    ∃ c cs lead culprit behind skipped resumed, bad ++ rest = c :: cs ∧ bad = lead ++ (culprit ++ behind) ∧
      Reading.ofChars c cs = .fault fault lead culprit skipped resumed ∧ ResumesAt bad rest resumed := by
  cases h with
  | @literal body _ hBody hInvalid =>
    rcases hBody.means_or_invalid with ⟨value, hValue⟩ | ⟨front, value, e, others, rfl, hFront, hEscape, hLine⟩
    · exact absurd hValue (hInvalid value)
    · have hRead := hFront.readBody_badEscape hEscape (others ++ '"' :: rest)
      obtain ⟨skipped, hSkipped⟩ := skippingString_eq hLine .invalidEscape ('"' :: front) ['\\'] rest
      refine ⟨'"', front ++ '\\' :: e :: (others ++ '"' :: rest), '"' :: front, ['\\'], e :: others ++ ['"'], skipped,
        behindQuote (e :: others ++ '"' :: rest), by simp, by simp, ?_, .literal hFront hEscape⟩
      rw [ofChars_quote, Reading.quoted, hRead]
      exact hSkipped
  | @comment text hOpen =>
    obtain ⟨skipped, hSkipped⟩ := skippingWord_eq .unterminatedComment [] ['/', '*'] text
    refine ⟨'/', '*' :: text, [], ['/', '*'], text, skipped, behindWord text, by simp, rfl, ?_, .comment⟩
    rw [ofChars_slashStar, Reading.blockComment, splitAtClose?_eq_none hOpen]
    exact hSkipped
  | caret =>
    obtain ⟨skipped, hSkipped⟩ := skippingWord_eq .danglingEscape [] ['^'] rest
    have hSpan : spanWord rest = ([], rest) := spanWord_append (fun _ hMem => absurd hMem List.not_mem_nil) hEnds
    refine ⟨'^', rest, [], ['^'], [], skipped, behindWord rest, rfl, rfl, ?_, .caret⟩
    rw [ofChars_caret, Reading.escaped, hSpan]
    exact hSkipped

theorem tokenizes_iff {cs : List Char} (start : Nat) :
    Tokenizes cs ↔ (lex start cs).filterMap Piece.diagnostic? = [] := by
  have hSource : (String.ofList cs).toList = cs := String.toList_ofList
  constructor
  · rintro ⟨lexemes, hLexemes⟩
    obtain ⟨hNone, -⟩ := lexemesOf_eq_ok_iff.mp hLexemes
    rw [hSource] at hNone
    exact (lex_of_scans (scans_of_lex hNone) start).1
  · intro hNone
    have hFirst := (lex_of_scans (scans_of_lex hNone) 0).1
    exact ⟨_, lexemesOf_eq_ok_iff.mpr ⟨by rwa [hSource], rfl⟩⟩

theorem tokenizes_iff_scans {cs : List Char} : Tokenizes cs ↔ ∃ tokens, Scans cs tokens := by
  rw [tokenizes_iff 0]
  exact ⟨fun h => ⟨_, scans_of_lex h⟩, fun ⟨_, h⟩ => (lex_of_scans h 0).1⟩

/-- The fault comes first; the other diagnostics are those of the text at which reading goes on. -/
theorem Malformed.exists_diagnostics (h : Malformed fault bad rest) (hEnds : EndsWord rest) :
    ∃ (span : Span) (resumed : List Char) (others : List Diagnostic), span.Within bad ∧ span.start < span.stop ∧
      ResumesAt bad rest resumed ∧ (others = [] ↔ Tokenizes resumed) ∧
      lexemesOf (String.ofList (bad ++ rest)) = .error ⟨fault.diagnostic span :: others⟩ := by
  obtain ⟨c, cs, lead, culprit, behind, skipped, resumed, hCons, hBad, hReading, hResumes⟩ := h.exists_reading hEnds
  have hMark := Reading.mark_ofChars_ne_nil c cs
  rw [hReading] at hMark
  have hLength : 0 < byteLength culprit := byteLength_pos hMark
  have hLex : ∃ offset, lex 0 (bad ++ rest) =
      .fault fault (.ofBounds (byteLength lead) (byteLength lead + byteLength culprit)) :: lex offset resumed := by
    refine ⟨0 + byteLength (lead ++ (culprit ++ skipped)), ?_⟩
    rw [hCons, lex, hReading, Reading.piece, Nat.zero_add]
    rfl
  obtain ⟨offset, hPieces⟩ := hLex
  refine ⟨.ofBounds (byteLength lead) (byteLength lead + byteLength culprit), resumed,
    (lex offset resumed).filterMap Piece.diagnostic?, ?_, ?_, hResumes, (tokenizes_iff offset).symm,
    lexemesOf_eq_error_iff.mpr ⟨List.cons_ne_nil _ _, ?_⟩⟩
  · rw [hBad]
    exact within_ofBounds lead culprit behind
  · exact Nat.lt_of_lt_of_le (Nat.lt_add_of_pos_right hLength) (Nat.le_max_left ..)
  · rw [String.toList_ofList, hPieces]
    rfl

/-! ## When nothing else is reported -/

theorem behindWord_cons {c : Char} {cs : List Char} (h : isWordChar c = false) : behindWord (c :: cs) = cs := by
  rw [behindWord, if_pos (List.takeWhile_cons_of_neg (by simp [h]))]
  rfl

theorem behindWord_word {w : String} (hWord : isWord w = true) (hEnds : EndsWord rest) :
    behindWord (w.toList ++ rest) = rest := by
  obtain ⟨c, cs, hList, -, hAll⟩ := isWordChars_iff.mp hWord
  rw [behindWord, takeWhile_word hAll hEnds, if_neg (hList ▸ List.cons_ne_nil c cs), dropWhile_word hAll hEnds]

theorem Symbol.scans_tail {s : Symbol} (hEnds : s.Ends rest) {tokens : List Token} (h : Scans rest tokens) :
    ∃ others, Scans (s.text.toList.tail ++ rest) others := by
  cases s with
  | doubleArrow => exact ⟨_, scans_symbol .arrow trivial h⟩
  | arrow => exact ⟨_, scans_symbol .greaterThan trivial h⟩
  | leftArrow => exact ⟨_, scans_symbol .dash hEnds h⟩
  | _ => exact ⟨_, h⟩

/-- A lexeme other than a quoted text or a comment may lose its first word or its first character. -/
theorem Tokenizes.behindWord {cs : List Char} (h : Tokenizes cs) (hHead : ∀ c ∈ cs.head?, c ≠ '"' ∧ c ≠ '/') :
    Tokenizes (behindWord cs) := by
  rw [tokenizes_iff_scans] at h ⊢
  obtain ⟨tokens, hScans⟩ := h
  cases cs with
  | nil => exact ⟨_, .nil⟩
  | cons c cs =>
    obtain ⟨content, slice, rest, others, hReading, hRest⟩ : ∃ content slice rest others,
        Reading.ofChars c cs = .lexeme content slice rest ∧ Scans rest others := by
      cases hScans with
      | token hReading hRest => exact ⟨_, _, _, _, hReading, hRest⟩
      | trivia hReading hRest => exact ⟨_, _, _, _, hReading, hRest⟩
    obtain ⟨hQuote, hSlash⟩ := hHead c rfl
    obtain ⟨hSplit, hLongest⟩ := ofChars_eq_lexeme_iff.mp hReading
    -- a word goes as a whole, since it is the longest there; any other lexeme keeps all but its first character
    cases hLongest.determined with
    | keyword k =>
      rw [← hSplit, behindWord_word (isWord_text k) (hLongest.endsWord_of_word (isWord_text k))]
      exact ⟨_, hRest⟩
    | name hWord _ =>
      rw [← hSplit, behindWord_word hWord (hLongest.endsWord_of_word hWord)]
      exact ⟨_, hRest⟩
    | escaped hWord =>
      obtain ⟨rfl, rfl⟩ := List.cons.inj hSplit
      rw [behindWord_cons rfl]
      exact ⟨_, scans_word hWord (hLongest.endsWord_of_escaped hWord) hRest⟩
    | string _ => exact absurd (List.cons.inj hSplit).1.symm hQuote
    | symbol s =>
      obtain ⟨d, ds, hText, -⟩ := head_symbol s
      have hTail := Symbol.scans_tail hLongest.ends_of_symbol hRest
      have hChar : isWordChar d = false := by
        cases s <;> cases hText <;> rfl
      rw [hText] at hSplit hTail
      obtain ⟨rfl, rfl⟩ := List.cons.inj hSplit
      rw [behindWord_cons hChar]
      exact hTail
    | lineComment _ => exact absurd (List.cons.inj hSplit).1.symm hSlash
    | blockComment _ => exact absurd (List.cons.inj hSplit).1.symm hSlash
    | newline =>
      obtain ⟨rfl, rfl⟩ := List.cons.inj hSplit
      rw [behindWord_cons rfl]
      exact ⟨_, hRest⟩
    | blank hRun hBlank =>
      obtain ⟨d, ds, rfl⟩ := List.exists_cons_of_ne_nil hRun
      obtain ⟨rfl, rfl⟩ := List.cons.inj hSplit
      obtain ⟨hFirst, hOthers⟩ := List.forall_mem_cons.mp hBlank
      rw [behindWord_cons (isWordChar_of_isBlank (Bool.and_eq_true_iff.mp hFirst).1)]
      exact ⟨_, scans_blanks hOthers hRest⟩

theorem behindQuote_append {text : List Char} (h : '"' ∉ text) (rest : List Char) :
    behindQuote (text ++ '"' :: rest) = rest := by
  rw [behindQuote, List.dropWhile_append_of_pos (forall_bne_of_not_mem h)]
  rfl

/-- Behind the fault nothing is misread: the quoted text has no further quote in it, or what follows the mark makes
lexemes, of which the first starts with neither a quote nor a slash. -/
inductive Spared : List Char → List Char → Prop
  | literal {front value others rest : List Char} {e : Char} (hFront : Quoted.Means front value)
      (hInvalid : Quoted.unescape? e = none) (hOthers : '"' ∉ others) :
      Spared ('"' :: (front ++ '\\' :: e :: others ++ ['"'])) rest
  | comment {text : List Char} (hText : Tokenizes text) (hHead : ∀ c ∈ text.head?, c ≠ '"' ∧ c ≠ '/') :
      Spared ('/' :: '*' :: text) []
  | caret {rest : List Char} (hHead : ∀ c ∈ rest.head?, c ≠ '"' ∧ c ≠ '/') : Spared ['^'] rest

theorem Spared.tokenizes (h : Spared bad rest) (hRest : Tokenizes rest) (hResumes : ResumesAt bad rest resumed) :
    Tokenizes resumed := by
  cases h with
  | @literal front value others _ e hFront hInvalid hOthers =>
    have hQuote : '"' ∉ e :: others := by
      rw [List.mem_cons, not_or]
      refine ⟨?_, hOthers⟩
      rintro rfl
      cases hInvalid
    rw [hResumes.unique (.literal hFront hInvalid), behindQuote_append hQuote]
    exact hRest
  | comment hText hHead =>
    rw [hResumes.unique .comment]
    exact hText.behindWord hHead
  | caret hHead =>
    rw [hResumes.unique .caret]
    exact hRest.behindWord hHead

/-- The fault of a malformed text is reported first, in the malformed text, and alone just where reading goes on with a
text that makes lexemes; so it does where nothing behind the fault is misread. -/
theorem lexemesOf_malformed (hBad : Malformed fault bad rest) (hRest : Tokenizes rest) (hEnds : EndsWord rest) :
    ∃ (span : Span) (others : List Diagnostic) (resumed : List Char), span.Within bad ∧ span.start < span.stop ∧
      lexemesOf (String.ofList (bad ++ rest)) = .error ⟨fault.diagnostic span :: others⟩ ∧
      ResumesAt bad rest resumed ∧ (Sole fault bad rest ↔ Tokenizes resumed) ∧
      (Spared bad rest → Sole fault bad rest) := by
  obtain ⟨span, resumed, others, hWithin, hSpan, hResumes, hOthers, hError⟩ := hBad.exists_diagnostics hEnds
  have hSole : Sole fault bad rest ↔ Tokenizes resumed := by
    rw [← hOthers]
    constructor
    · rintro ⟨only, -, -, hOnly⟩
      cases hError.symm.trans hOnly
      rfl
    · rintro rfl
      exact ⟨span, hWithin, hSpan, hError⟩
  exact ⟨span, others, resumed, hWithin, hSpan, hError, hResumes, hSole,
    fun hSpared => hSole.mpr (hSpared.tokenizes hRest hResumes)⟩

/-- A quoted text with one invalid escape, before a name. -/
theorem lexemesOf_malformed_badEscape :
    Malformed .invalidEscape "\"a\\qb\"".toList " Sales".toList ∧ Tokenizes " Sales".toList ∧
      EndsWord " Sales".toList ∧ Sole .invalidEscape "\"a\\qb\"".toList " Sales".toList := by
  have hFront : Quoted.Means ['a'] ['a'] := .plain (by decide) (by decide) (by decide) .nil
  have hBody : Quoted.Enclosed ['a', '\\', 'q', 'b'] :=
    .plain (by decide) (by decide) (by decide) (.pair (by decide) (.plain (by decide) (by decide) (by decide) .nil))
  have hInvalid : ∀ value, ¬ Quoted.Means ['a', '\\', 'q', 'b'] value := by
    intro value hValue
    cases (hValue.readBody []).symm.trans (hFront.readBody_badEscape rfl ['b', '"'])
  have hBad : Malformed .invalidEscape "\"a\\qb\"".toList " Sales".toList := .literal hBody hInvalid
  have hRest : Tokenizes " Sales".toList := (tokenizes_iff 0).mpr (by decide +kernel)
  have hEnds : EndsWord " Sales".toList := by
    intro c hc
    cases hc
    rfl
  obtain ⟨_, _, _, -, -, -, -, -, hSole⟩ := lexemesOf_malformed hBad hRest hEnds
  exact ⟨hBad, hRest, hEnds, hSole (@Spared.literal _ _ ['b'] _ 'q' hFront rfl (by decide))⟩

theorem not_sole_of_two (first second : Diagnostic)
    (h : (lex 0 (bad ++ rest)).filterMap Piece.diagnostic? = [first, second]) : ¬ Sole fault bad rest := by
  rintro ⟨span, -, -, hSole⟩
  obtain ⟨-, hOnly⟩ := lexemesOf_eq_error_iff.mp hSole
  rw [String.toList_ofList, h] at hOnly
  cases hOnly

/-- A second fault is reported where an escaped quote follows the invalid escape, where the text of the comment makes no
lexemes, and where a quoted text follows the caret. -/
theorem not_sole_of_misread :
    Tokenizes [] ∧ EndsWord [] ∧
      (Malformed .invalidEscape "\"\\q\\\"\"".toList [] ∧ ¬ Sole .invalidEscape "\"\\q\\\"\"".toList []) ∧
      (Malformed .unterminatedComment "/* @".toList [] ∧ ¬ Sole .unterminatedComment "/* @".toList []) ∧
      Tokenizes "\"a\"".toList ∧ EndsWord "\"a\"".toList ∧ Malformed .danglingEscape ['^'] "\"a\"".toList ∧
      ¬ Sole .danglingEscape ['^'] "\"a\"".toList := by
  have hBody : Quoted.Enclosed ['\\', 'q', '\\', '"'] := .pair (by decide) (.pair (by decide) .nil)
  have hInvalid : ∀ value, ¬ Quoted.Means ['\\', 'q', '\\', '"'] value := by
    intro value hValue
    cases (hValue.readBody []).symm.trans (Quoted.Means.nil.readBody_badEscape rfl ['\\', '"', '"'])
  have hRest : Tokenizes "\"a\"".toList := (tokenizes_iff 0).mpr (by decide +kernel)
  refine ⟨tokenizes_iff_scans.mpr ⟨[], .nil⟩, fun _ hNone => (Option.not_mem_none _ hNone).elim,
    ⟨.literal hBody hInvalid, ?_⟩, ⟨.comment (by decide), ?_⟩, hRest, ?_, .caret, ?_⟩
  · exact not_sole_of_two (Fault.diagnostic .invalidEscape (.ofBounds 1 2))
      (Fault.diagnostic .unterminatedString (.ofBounds 5 6)) (by decide +kernel)
  · exact not_sole_of_two (Fault.diagnostic .unterminatedComment (.ofBounds 0 2))
      (Fault.diagnostic .unexpectedCharacter (.ofBounds 3 4)) (by decide +kernel)
  · intro c hc
    cases hc
    rfl
  · exact not_sole_of_two (Fault.diagnostic .danglingEscape (.ofBounds 0 1))
      (Fault.diagnostic .unterminatedString (.ofBounds 3 4)) (by decide +kernel)

end DomainAtlas
