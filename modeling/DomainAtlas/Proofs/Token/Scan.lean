import DomainAtlas.Proofs.Text.Quoted
import DomainAtlas.Token.Lexer

/-! # Scanning without faults

`Scans cs tokens` says that a text is read without fault and that `tokens` are its tokens, trivia left
out. It is followed from the front of the text, lexeme by lexeme, and does not know of spans.
-/
set_option autoImplicit false

namespace DomainAtlas

open Text

inductive Scans : List Char → List Token → Prop
  | nil : Scans [] []
  | token {c : Char} {cs slice rest : List Char} {t : Token} {tokens : List Token}
      (hReading : Reading.ofChars c cs = .lexeme (.token t) slice rest) (hRest : Scans rest tokens) :
      Scans (c :: cs) (t :: tokens)
  | trivia {c : Char} {cs slice rest : List Char} {trivia : Trivia} {tokens : List Token}
      (hReading : Reading.ofChars c cs = .lexeme (.trivia trivia) slice rest) (hRest : Scans rest tokens) :
      Scans (c :: cs) tokens

/-- The tokens of pieces. -/
def Piece.tokens (pieces : List Piece) : List Token :=
  (tokensOf (pieces.filterMap Piece.lexeme?)).map (·.value)

theorem lex_of_scans {cs : List Char} {tokens : List Token} (h : Scans cs tokens) (start : Nat) :
    (lex start cs).filterMap Piece.diagnostic? = [] ∧ Piece.tokens (lex start cs) = tokens := by
  induction h generalizing start with
  | nil =>
    rw [lex]
    exact ⟨rfl, rfl⟩
  | token hReading _ ih =>
    rw [lex, hReading]
    exact ⟨(ih _).1, congrArg _ (ih _).2⟩
  | trivia hReading _ ih =>
    rw [lex, hReading]
    exact ih _

theorem scans_of_lex {start : Nat} {cs : List Char}
    (h : (lex start cs).filterMap Piece.diagnostic? = []) : Scans cs (Piece.tokens (lex start cs)) := by
  fun_induction lex start cs with
  | case1 => exact .nil
  | case2 start c cs reading ih =>
    cases hReading : reading with
    | lexeme content slice rest =>
      rw [hReading] at h ih
      cases content with
      | token t => exact .token hReading (ih h)
      | trivia trivia => exact .trivia hReading (ih h)
    | fault kind lead culprit skipped rest =>
      rw [hReading] at h
      cases h

theorem lexemesOf_eq_ok_iff {source : String} {lexemes : List Lexeme} :
    lexemesOf source = .ok lexemes ↔ (lex 0 source.toList).filterMap Piece.diagnostic? = [] ∧
      (lex 0 source.toList).filterMap Piece.lexeme? = lexemes := by
  dsimp only [lexemesOf]
  split
  · rename_i hNone
    exact ⟨fun h => ⟨hNone, Except.ok.inj h⟩, fun h => congrArg _ h.2⟩
  · rename_i hSome
    refine ⟨fun h => ?_, fun h => absurd h.1 hSome⟩
    cases h

theorem lexemesOf_eq_error_iff {source : String} {error : ParseError} :
    lexemesOf source = .error error ↔
      error.diagnostics ≠ [] ∧ (lex 0 source.toList).filterMap Piece.diagnostic? = error.diagnostics := by
  dsimp only [lexemesOf]
  split
  · rename_i hNone
    refine ⟨fun h => ?_, fun h => absurd (h.2.symm.trans hNone) h.1⟩
    cases h
  · rename_i hSome
    constructor
    · intro h
      cases h
      exact ⟨hSome, rfl⟩
    · rintro ⟨-, hDiagnostics⟩
      rw [hDiagnostics]

theorem lexemesOf_iff_scans {source : String} {tokens : List Token} :
    (∃ lexemes, lexemesOf source = .ok lexemes ∧ (tokensOf lexemes).map (·.value) = tokens) ↔
      Scans source.toList tokens := by
  constructor
  · rintro ⟨lexemes, hLexemes, rfl⟩
    obtain ⟨hNone, rfl⟩ := lexemesOf_eq_ok_iff.mp hLexemes
    exact scans_of_lex hNone
  · intro h
    obtain ⟨hNone, hTokens⟩ := lex_of_scans h 0
    exact ⟨_, lexemesOf_eq_ok_iff.mpr ⟨hNone, rfl⟩, hTokens⟩

/-! ## What the front of a text is read as -/

/-- No word goes on in what follows. -/
def EndsWord (rest : List Char) : Prop :=
  ∀ c ∈ rest.head?, isWordChar c = false

theorem takeWhile_word {w rest : List Char} (hWord : ∀ c ∈ w, isWordChar c = true) (hRest : EndsWord rest) :
    (w ++ rest).takeWhile isWordChar = w := by
  rw [List.takeWhile_append_of_pos hWord]
  cases rest with
  | nil => simp
  | cons c cs => simp [hRest c rfl]

theorem dropWhile_word {w rest : List Char} (hWord : ∀ c ∈ w, isWordChar c = true) (hRest : EndsWord rest) :
    (w ++ rest).dropWhile isWordChar = rest := by
  rw [List.dropWhile_append_of_pos hWord]
  cases rest with
  | nil => rfl
  | cons c cs => simp [hRest c rfl]

theorem spanWord_append {w rest : List Char} (hWord : ∀ c ∈ w, isWordChar c = true) (hRest : EndsWord rest) :
    spanWord (w ++ rest) = (w, rest) := by
  rw [spanWord, takeWhile_word hWord hRest, dropWhile_word hWord hRest]

theorem isWordChars_iff {w : List Char} :
    isWordChars w = true ↔ ∃ c cs, w = c :: cs ∧ isWordStart c = true ∧ ∀ d ∈ w, isWordChar d = true := by
  cases w with
  | nil => simp [isWordChars]
  | cons c cs =>
    simp only [isWordChars, Bool.and_eq_true, List.all_eq_true, List.cons.injEq]
    constructor
    · rintro ⟨hStart, hAll⟩
      refine ⟨c, cs, ⟨rfl, rfl⟩, hStart, ?_⟩
      intro d hd
      rcases List.mem_cons.mp hd with rfl | hd
      · exact isWordChar_of_isWordStart hStart
      · exact hAll d hd
    · rintro ⟨_, _, ⟨rfl, rfl⟩, hStart, hAll⟩
      exact ⟨hStart, fun d hd => hAll d (List.mem_cons_of_mem _ hd)⟩

theorem ofChars_slashes (cs : List Char) : Reading.ofChars '/' ('/' :: cs) = Reading.lineComment cs := by
  simp [Reading.ofChars]

theorem ofChars_slashStar (cs : List Char) : Reading.ofChars '/' ('*' :: cs) = Reading.blockComment cs := by
  simp [Reading.ofChars]

theorem ofChars_quote (cs : List Char) : Reading.ofChars '"' cs = Reading.quoted cs := by
  simp [Reading.ofChars]

theorem ofChars_caret (cs : List Char) : Reading.ofChars '^' cs = Reading.escaped cs := by
  simp [Reading.ofChars]

theorem ofChars_of_isWordStart {c : Char} {cs : List Char} (h : isWordStart c = true) :
    Reading.ofChars c cs = Reading.word (c :: cs) := by
  have hSlash : c ≠ '/' := by
    rintro rfl
    exact absurd h (by decide)
  have hQuote : c ≠ '"' := by
    rintro rfl
    exact absurd h (by decide)
  have hCaret : c ≠ '^' := by
    rintro rfl
    exact absurd h (by decide)
  simp [Reading.ofChars, hSlash, hQuote, hCaret, h]

theorem ofChars_word {w : String} {c : Char} {cs rest : List Char} (hList : w.toList = c :: cs)
    (hWord : isWord w = true) (hRest : EndsWord rest) :
    Reading.ofChars c (cs ++ rest) = .lexeme (.token (Reading.tokenOfWord w)) w.toList rest := by
  obtain ⟨d, ds, hw, hStart, hAll⟩ := isWordChars_iff.mp hWord
  obtain ⟨rfl, rfl⟩ := List.cons.inj (hList.symm.trans hw)
  rw [ofChars_of_isWordStart hStart, Reading.word, ← List.cons_append, ← hList, spanWord_append hAll hRest]
  simp only [String.ofList_toList]

theorem Keyword.mem_all (k : Keyword) : k ∈ Keyword.all := by
  cases k with
  | reserved w => exact List.mem_append_right _ (List.mem_map_of_mem (List.mem_attach _ w))
  | _ => exact List.mem_append_left _ (by decide)

theorem ofWord?_text (k : Keyword) : Keyword.ofWord? k.text = some k := by
  have hAll : ∀ k ∈ Keyword.all, Keyword.ofWord? k.text = some k := by decide +kernel
  exact hAll k k.mem_all

theorem isWord_text (k : Keyword) : isWord k.text = true := by
  have hAll : ∀ k ∈ Keyword.all, isWord k.text = true := by decide +kernel
  exact hAll k k.mem_all

theorem tokenOfWord_text (k : Keyword) : Reading.tokenOfWord k.text = .keyword k := by
  rw [Reading.tokenOfWord, ofWord?_text]

theorem ofWord?_eq_none_iff {w : String} : Keyword.ofWord? w = none ↔ w ∉ Keyword.words := by
  rw [Keyword.ofWord?, List.find?_eq_none, Keyword.words, List.mem_map, not_exists]
  simp only [beq_iff_eq, not_and]

theorem scans_word {w : String} {rest : List Char} {tokens : List Token} (hWord : isWord w = true)
    (hRest : EndsWord rest) (h : Scans rest tokens) :
    Scans (w.toList ++ rest) (Reading.tokenOfWord w :: tokens) := by
  obtain ⟨c, cs, hList, -⟩ := isWordChars_iff.mp hWord
  have hReading := ofChars_word hList hWord hRest
  rw [hList]
  exact .token hReading h

theorem Scans.of_word {w : String} {rest : List Char} {tokens : List Token} (hWord : isWord w = true)
    (hRest : EndsWord rest) (h : Scans (w.toList ++ rest) tokens) :
    ∃ others, tokens = Reading.tokenOfWord w :: others ∧ Scans rest others := by
  obtain ⟨c, cs, hList, -⟩ := isWordChars_iff.mp hWord
  have hReading := ofChars_word hList hWord hRest
  rw [hList, List.cons_append] at h
  cases h with
  | token hToken hOthers =>
    rw [hReading] at hToken
    cases hToken
    exact ⟨_, rfl, hOthers⟩
  | trivia hTrivia _ =>
    rw [hReading] at hTrivia
    cases hTrivia

theorem ofChars_escaped {w : String} {rest : List Char} (hWord : isWord w = true) (hRest : EndsWord rest) :
    Reading.ofChars '^' (w.toList ++ rest) = .lexeme (.token (.name w)) ('^' :: w.toList) rest := by
  obtain ⟨c, cs, hw, hStart, hAll⟩ := isWordChars_iff.mp hWord
  rw [ofChars_caret, Reading.escaped, spanWord_append hAll hRest]
  simp only [if_pos (show isWordChars w.toList = true from hWord), String.ofList_toList]

theorem scans_escaped {w : String} {rest : List Char} {tokens : List Token} (hWord : isWord w = true)
    (hRest : EndsWord rest) (h : Scans rest tokens) :
    Scans ('^' :: (w.toList ++ rest)) (.name w :: tokens) :=
  .token (ofChars_escaped hWord hRest) h

theorem ofChars_quoteChars (text : String) (rest : List Char) :
    Reading.ofChars '"' (Quoted.body text.toList ++ '"' :: rest) =
      .lexeme (.token (.string text)) (Quoted.quoteChars text.toList) rest := by
  rw [ofChars_quote, Reading.quoted, (Quoted.means_body text.toList).readBody rest, Quoted.quoteChars]
  simp only [String.ofList_toList]

theorem toList_quote_append (text : String) (rest : List Char) :
    (Quoted.quote text).toList ++ rest = '"' :: (Quoted.body text.toList ++ '"' :: rest) := by
  rw [Quoted.quote, String.toList_ofList, Quoted.quoteChars, List.cons_append, List.append_assoc,
    List.singleton_append]

theorem scans_quote (text : String) {rest : List Char} {tokens : List Token} (h : Scans rest tokens) :
    Scans ((Quoted.quote text).toList ++ rest) (.string text :: tokens) := by
  rw [toList_quote_append]
  exact .token (ofChars_quoteChars text rest) h

/-! ## Symbols -/

/-- What follows does not make the symbol a longer one. -/
def Symbol.Ends (s : Symbol) (rest : List Char) : Prop :=
  match s with
  | .dash | .leftArrow => rest.head? ≠ some '>'
  | .lessThan => rest.head? ≠ some '-'
  | _ => True

theorem not_isPrefixOf_of_head {a : Char} {as cs : List Char} (h : cs.head? ≠ some a) :
    (a :: as).isPrefixOf cs = false := by
  cases cs with
  | nil => rfl
  | cons c cs =>
    have hNe : a ≠ c := by
      rintro rfl
      exact h rfl
    simp [List.isPrefixOf, hNe]

theorem atFront?_append (s : Symbol) {rest : List Char} (h : s.Ends rest) :
    Symbol.atFront? (s.text.toList ++ rest) = some s := by
  cases s
  case dash | leftArrow | lessThan =>
    simp [Symbol.atFront?, Symbol.all, Symbol.text, List.find?, List.isPrefixOf, not_isPrefixOf_of_head h]
  all_goals simp [Symbol.atFront?, Symbol.all, Symbol.text, List.find?, List.isPrefixOf]

theorem head_symbol (s : Symbol) : ∃ c cs, s.text.toList = c :: cs ∧ c ≠ '/' ∧ c ≠ '"' ∧ c ≠ '^' ∧
    isWordStart c = false := by
  cases s <;> exact ⟨_, _, rfl, by decide, by decide, by decide, by decide⟩

theorem ofChars_symbol {s : Symbol} {c : Char} {cs rest : List Char} (hText : s.text.toList = c :: cs)
    (hEnds : s.Ends rest) :
    Reading.ofChars c (cs ++ rest) = .lexeme (.token (.symbol s)) s.text.toList rest := by
  have hFront := atFront?_append s hEnds
  obtain ⟨d, ds, hList, hSlash, hQuote, hCaret, hStart⟩ := head_symbol s
  obtain ⟨rfl, rfl⟩ := List.cons.inj (hText.symm.trans hList)
  rw [hText, List.cons_append] at hFront
  simp [Reading.ofChars, Reading.plain, hSlash, hQuote, hCaret, hStart, hFront, hText]

theorem scans_symbol (s : Symbol) {rest : List Char} {tokens : List Token} (hEnds : s.Ends rest)
    (h : Scans rest tokens) : Scans (s.text.toList ++ rest) (.symbol s :: tokens) := by
  obtain ⟨c, cs, hText, -⟩ := head_symbol s
  have hReading := ofChars_symbol hText hEnds
  rw [hText]
  exact .token hReading h

theorem Scans.of_symbol {s : Symbol} {rest : List Char} {tokens : List Token} (hEnds : s.Ends rest)
    (h : Scans (s.text.toList ++ rest) tokens) : ∃ others, tokens = .symbol s :: others ∧ Scans rest others := by
  obtain ⟨c, cs, hText, -⟩ := head_symbol s
  have hReading := ofChars_symbol hText hEnds
  rw [hText, List.cons_append] at h
  cases h with
  | token hToken hOthers =>
    rw [hReading] at hToken
    cases hToken
    exact ⟨_, rfl, hOthers⟩
  | trivia hTrivia _ =>
    rw [hReading] at hTrivia
    cases hTrivia

/-! ## Blanks and newlines -/

theorem toNat_of_isBlank {c : Char} (h : isBlank c = true) : c.toNat ≤ 32 ∨ 133 ≤ c.toNat := by
  obtain ⟨range, hRange, hLow, hHigh⟩ := (isBlank_iff c).mp h
  have hBounds : ∀ range ∈ blankRanges, range.2 ≤ 32 ∨ 133 ≤ range.1 := by decide
  rcases hBounds range hRange with hBound | hBound <;> omega

theorem ne_of_isBlank {c d : Char} (h : isBlank c = true) (hd : 32 < d.toNat ∧ d.toNat < 133) : c ≠ d := by
  rintro rfl
  have hBounds := toNat_of_isBlank h
  omega

theorem isWordChar_of_isBlank {c : Char} (h : isBlank c = true) : isWordChar c = false := by
  have hBounds := toNat_of_isBlank h
  have hUnderscore : c ≠ '_' := ne_of_isBlank h (by decide)
  have hRanges : isWordChar c = (decide (65 ≤ c.val ∧ c.val ≤ 90) || (decide (97 ≤ c.val) && decide (c.val ≤ 122))
      || (decide (48 ≤ c.val) && decide (c.val ≤ 57)) || c == '_') := rfl
  simp [hRanges, hUnderscore, UInt32.le_iff_toNat_le]
  omega

theorem isWordStart_of_isBlank {c : Char} (h : isBlank c = true) : isWordStart c = false := by
  cases hStart : isWordStart c with
  | false => rfl
  | true => exact absurd (isWordChar_of_isWordStart hStart) (by simp [isWordChar_of_isBlank h])

theorem atFront?_of_isBlank {c : Char} (cs : List Char) (h : isBlank c = true) :
    Symbol.atFront? (c :: cs) = none := by
  rw [Symbol.atFront?, List.find?_eq_none]
  intro s _ hPrefix
  have hHeads : ∀ s : Symbol, ∃ d ds, s.text.toList = d :: ds ∧ 32 < d.toNat ∧ d.toNat < 133 := by
    intro s
    cases s <;> exact ⟨_, _, rfl, by decide, by decide⟩
  obtain ⟨d, ds, hText, hd⟩ := hHeads s
  rw [hText, List.isPrefixOf, Bool.and_eq_true, beq_iff_eq] at hPrefix
  exact ne_of_isBlank h hd hPrefix.1.symm

theorem ofChars_of_isBlank {c : Char} (cs : List Char) (h : isBlank c = true) (hNewline : c ≠ '\n') :
    Reading.ofChars c cs = .lexeme (.trivia .blank) (c :: cs.takeWhile Reading.isInnerBlank)
      (cs.dropWhile Reading.isInnerBlank) := by
  have hSlash : c ≠ '/' := ne_of_isBlank h (by decide)
  have hQuote : c ≠ '"' := ne_of_isBlank h (by decide)
  have hCaret : c ≠ '^' := ne_of_isBlank h (by decide)
  simp [Reading.ofChars, Reading.plain, hSlash, hQuote, hCaret, isWordStart_of_isBlank h,
    atFront?_of_isBlank cs h, hNewline, h]

/-- Blanks at the front may be taken away. -/
theorem Scans.dropBlanks {cs : List Char} {tokens : List Token} (h : Scans cs tokens) :
    Scans (cs.dropWhile Reading.isInnerBlank) tokens := by
  cases cs with
  | nil => exact h
  | cons c cs =>
    cases hBlank : Reading.isInnerBlank c with
    | false => rwa [List.dropWhile_cons_of_neg (by simp [hBlank])]
    | true =>
      have hBoth : isBlank c = true ∧ c ≠ '\n' := by simpa [Reading.isInnerBlank] using hBlank
      rw [List.dropWhile_cons_of_pos hBlank]
      cases h with
      | token hReading _ =>
        rw [ofChars_of_isBlank cs hBoth.1 hBoth.2] at hReading
        cases hReading
      | trivia hReading hRest =>
        rw [ofChars_of_isBlank cs hBoth.1 hBoth.2] at hReading
        cases hReading
        exact hRest

theorem scans_space {rest : List Char} {tokens : List Token} (h : Scans rest tokens) :
    Scans (' ' :: rest) tokens :=
  .trivia (ofChars_of_isBlank rest (by decide) (by decide)) h.dropBlanks

theorem ofChars_newline (cs : List Char) : Reading.ofChars '\n' cs = .lexeme (.trivia .newline) ['\n'] cs := by
  have hBlank : isBlank '\n' = true := by decide
  simp [Reading.ofChars, Reading.plain, atFront?_of_isBlank cs hBlank, isWordStart_of_isBlank hBlank]

theorem scans_newline {rest : List Char} {tokens : List Token} (h : Scans rest tokens) :
    Scans ('\n' :: rest) tokens :=
  .trivia (ofChars_newline rest) h

end DomainAtlas
