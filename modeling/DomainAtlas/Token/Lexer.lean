import DomainAtlas.Text.Blank
import DomainAtlas.Text.Quoted
import DomainAtlas.Token
import DomainAtlas.Diagnostic
/-!
# Reading lexemes

`Reading.ofChars` reads one lexeme, or one fault, from the front of a text. `lex` reads a whole text.
A fault does not end the reading: a little text behind it is skipped, so that all faults of a source are
found at once. No character is lost (`Reading.text_ofChars`).
-/
set_option autoImplicit false

namespace DomainAtlas

open Text

/-- Why a text is not made of lexemes. -/
inductive Fault
  | unterminatedString
  | unexpectedCharacter
  | invalidEscape
  | unterminatedComment
  | danglingEscape
  deriving DecidableEq, Repr

namespace Fault

def code : Fault → ErrorCode
  | unterminatedString => .unterminatedString
  | unexpectedCharacter => .unexpectedCharacter
  | invalidEscape => .invalidEscape
  | unterminatedComment => .unterminatedComment
  | danglingEscape => .danglingEscape

def message : Fault → String
  | unterminatedString => "unterminated string literal"
  | unexpectedCharacter => "unexpected character"
  | invalidEscape => "invalid escape sequence"
  | unterminatedComment => "unterminated block comment"
  | danglingEscape => "`^` must be followed by an identifier"

def help? : Fault → Option String
  | unterminatedString => some "add closing `\"` before the end of the line"
  | unexpectedCharacter => none
  | invalidEscape => some "valid escapes: `\\\\`, `\\\"`, `\\'`, `\\n`, `\\r`, `\\t`"
  | unterminatedComment => some "close the comment with `*/`"
  | danglingEscape => some "write the escaped name directly after the caret: `^type`"

def diagnostic (fault : Fault) (span : Span) : Diagnostic where
  severity := .error
  code := some fault.code
  message := fault.message
  labels := [⟨span, fault.code.description, true⟩]
  help := fault.help?

end Fault

inductive Reading
  | lexeme (content : Content) (slice rest : List Char)
  /-- A fault in `culprit`, which follows `lead`. Reading goes on after `skipped`. -/
  | fault (fault : Fault) (lead culprit skipped rest : List Char)
  deriving DecidableEq, Repr

namespace Reading

def consumed : Reading → List Char
  | lexeme _ slice _ => slice
  | fault _ lead culprit skipped _ => lead ++ (culprit ++ skipped)

def rest : Reading → List Char
  | lexeme _ _ rest => rest
  | fault _ _ _ _ rest => rest

def text (reading : Reading) : List Char :=
  reading.consumed ++ reading.rest

/-- A fault after which the word that follows is skipped, or a single character where none follows. -/
def skippingWord (fault : Fault) (lead culprit after : List Char) : Reading :=
  match spanWord after with
  | ([], _) => .fault fault lead culprit (after.take 1) (after.drop 1)
  | (run, rest) => .fault fault lead culprit run rest

/-- A fault inside a quoted text; the text up to its closing quote or the end of the line is skipped. -/
def skippingString (fault : Fault) (lead culprit after : List Char) : Reading :=
  let inside := after.takeWhile fun c => c != '"' && c != '\n'
  match after.dropWhile fun c => c != '"' && c != '\n' with
  | '"' :: rest => .fault fault lead culprit (inside ++ ['"']) rest
  | rest => .fault fault lead culprit inside rest

/-- Splits at the first star that a slash follows; the pair is in neither half. -/
def splitAtClose? : List Char → Option (List Char × List Char)
  | [] => none
  | c :: cs =>
    if c = '*' ∧ cs.head? = some '/' then some ([], cs.tail)
    else (splitAtClose? cs).map fun halves => (c :: halves.1, halves.2)

def lineComment (cs : List Char) : Reading :=
  let text := cs.takeWhile (· != '\n')
  .lexeme (.trivia (.lineComment (String.ofList text))) ('/' :: '/' :: text)
    (cs.dropWhile (· != '\n'))

def blockComment (cs : List Char) : Reading :=
  match splitAtClose? cs with
  | some (text, rest) =>
    .lexeme (.trivia (.blockComment (String.ofList text))) ('/' :: '*' :: (text ++ ['*', '/'])) rest
  | none => skippingWord .unterminatedComment [] ['/', '*'] cs

def quoted (cs : List Char) : Reading :=
  match Quoted.readBody cs with
  | .closed value written rest =>
    .lexeme (.token (.string (String.ofList value))) ('"' :: written) rest
  | .unclosed written rest => skippingWord .unterminatedString [] ('"' :: written) rest
  | .badEscape written rest => skippingString .invalidEscape ('"' :: written) ['\\'] rest

/-- What follows a caret: the word after it is a name even where it is a keyword. -/
def escaped (cs : List Char) : Reading :=
  match spanWord cs with
  | (run, rest) =>
    if isWordChars run then .lexeme (.token (.name (String.ofList run))) ('^' :: run) rest
    else skippingWord .danglingEscape [] ['^'] cs

def tokenOfWord (word : String) : Token :=
  match Keyword.ofWord? word with
  | some keyword => .keyword keyword
  | none => .name word

def word (cs : List Char) : Reading :=
  match spanWord cs with
  | (run, rest) => .lexeme (.token (tokenOfWord (String.ofList run))) run rest

/-- A character that starts no lexeme; where it is a digit, the word that it spoils is skipped. -/
def unexpected (c : Char) (cs : List Char) : Reading :=
  if isWordChar c then .fault .unexpectedCharacter [] [c] (cs.takeWhile isWordChar) (cs.dropWhile isWordChar)
  else .fault .unexpectedCharacter [] [c] [] cs

def isInnerBlank (c : Char) : Bool :=
  isBlank c && c != '\n'

/-- A symbol, a newline, a run of blanks, or nothing known. -/
def plain (c : Char) (cs : List Char) : Reading :=
  match Symbol.atFront? (c :: cs) with
  | some symbol =>
    .lexeme (.token (.symbol symbol)) symbol.text.toList ((c :: cs).drop symbol.text.toList.length)
  | none =>
    if c = '\n' then .lexeme (.trivia .newline) ['\n'] cs
    else if isBlank c then
      .lexeme (.trivia .blank) (c :: cs.takeWhile isInnerBlank) (cs.dropWhile isInnerBlank)
    else unexpected c cs

def ofChars (c : Char) (cs : List Char) : Reading :=
  if c = '/' ∧ cs.head? = some '/' then lineComment cs.tail
  else if c = '/' ∧ cs.head? = some '*' then blockComment cs.tail
  else if c = '"' then quoted cs
  else if c = '^' then escaped cs
  else if isWordStart c then word (c :: cs)
  else plain c cs

theorem text_lexeme (content : Content) (slice rest : List Char) :
    (lexeme content slice rest).text = slice ++ rest := rfl

theorem text_fault (kind : Fault) (lead culprit skipped rest : List Char) :
    (fault kind lead culprit skipped rest).text = lead ++ (culprit ++ (skipped ++ rest)) := by
  simp [text, consumed, Reading.rest]

theorem text_skippingWord (kind : Fault) (lead culprit after : List Char) :
    (skippingWord kind lead culprit after).text = lead ++ (culprit ++ after) := by
  have h : after.takeWhile isWordChar ++ after.dropWhile isWordChar = after :=
    List.takeWhile_append_dropWhile
  unfold skippingWord spanWord
  split
  · rw [text_fault, List.take_append_drop]
  · rename_i run rest _ hRun
    obtain ⟨rfl, rfl⟩ := Prod.mk.inj hRun
    rw [text_fault, h]

theorem text_skippingString (kind : Fault) (lead culprit after : List Char) :
    (skippingString kind lead culprit after).text = lead ++ (culprit ++ after) := by
  have h : (after.takeWhile fun c => c != '"' && c != '\n') ++
      (after.dropWhile fun c => c != '"' && c != '\n') = after :=
    List.takeWhile_append_dropWhile
  unfold skippingString
  split
  · rename_i rest hRest
    rw [hRest] at h
    rw [text_fault, List.append_assoc]
    exact congrArg (fun t => lead ++ (culprit ++ t)) h
  · rw [text_fault, h]

theorem of_splitAtClose?_eq_some (cs : List Char) {text rest : List Char}
    (h : splitAtClose? cs = some (text, rest)) : text ++ '*' :: '/' :: rest = cs := by
  induction cs generalizing text rest with
  | nil => simp [splitAtClose?] at h
  | cons c cs ih =>
    unfold splitAtClose? at h
    split at h
    · rename_i hClose
      obtain ⟨rfl, hHead⟩ := hClose
      obtain ⟨rfl, rfl⟩ := Prod.mk.inj (Option.some.inj h)
      cases cs with
      | nil => simp at hHead
      | cons d ds =>
        simp only [List.head?_cons, Option.some.injEq] at hHead
        simp [hHead]
    · obtain ⟨halves, hHalves, hEq⟩ := Option.map_eq_some_iff.mp h
      obtain ⟨rfl, rfl⟩ := Prod.mk.inj hEq
      simp [ih hHalves]

theorem text_lineComment (cs : List Char) : (lineComment cs).text = '/' :: '/' :: cs := by
  simp [lineComment, text_lexeme, List.takeWhile_append_dropWhile]

theorem text_blockComment (cs : List Char) : (blockComment cs).text = '/' :: '*' :: cs := by
  unfold blockComment
  split
  · rename_i text rest h
    have := of_splitAtClose?_eq_some cs h
    simp [text_lexeme, ← this]
  · simp [text_skippingWord]

theorem text_quoted (cs : List Char) : (quoted cs).text = '"' :: cs := by
  have hText := Quoted.text_readBody cs
  unfold quoted
  split
  · rename_i value written rest h
    rw [h, Quoted.Body.text_closed] at hText
    simp [text_lexeme, hText]
  · rename_i written rest h
    rw [h, Quoted.Body.text_unclosed] at hText
    simp [text_skippingWord, hText]
  · rename_i written rest h
    rw [h, Quoted.Body.text_badEscape] at hText
    simp [text_skippingString, hText]

theorem text_escaped (cs : List Char) : (escaped cs).text = '^' :: cs := by
  unfold escaped spanWord
  split
  rename_i run rest h
  obtain ⟨rfl, rfl⟩ := Prod.mk.inj h
  split
  · simp [text_lexeme, List.takeWhile_append_dropWhile]
  · simp [text_skippingWord]

theorem text_word (cs : List Char) : (word cs).text = cs := by
  simp [word, spanWord, text_lexeme, List.takeWhile_append_dropWhile]

theorem text_unexpected (c : Char) (cs : List Char) : (unexpected c cs).text = c :: cs := by
  unfold unexpected
  split <;> simp [text_fault, List.takeWhile_append_dropWhile]

theorem text_plain (c : Char) (cs : List Char) : (plain c cs).text = c :: cs := by
  unfold plain
  split
  · rename_i symbol h
    exact Symbol.append_drop_of_atFront? h
  · split
    · rename_i h
      simp [text_lexeme, h]
    · split
      · simp [text_lexeme, List.takeWhile_append_dropWhile]
      · exact text_unexpected c cs

/-- Reading loses no character. -/
theorem text_ofChars (c : Char) (cs : List Char) : (ofChars c cs).text = c :: cs := by
  have hTail : ∀ d, cs.head? = some d → d :: cs.tail = cs := by
    intro d hd
    cases cs with
    | nil => simp at hd
    | cons e es => simpa using hd.symm
  unfold ofChars
  split
  · rename_i h
    rw [text_lineComment, hTail _ h.2, h.1]
  · split
    · rename_i h
      rw [text_blockComment, hTail _ h.2, h.1]
    · split
      · rename_i h
        rw [text_quoted, h]
      · split
        · rename_i h
          rw [text_escaped, h]
        · split
          · exact text_word (c :: cs)
          · exact text_plain c cs

theorem consumed_skippingWord_ne_nil (kind : Fault) {culprit : List Char} (after : List Char)
    (h : culprit ≠ []) : (skippingWord kind [] culprit after).consumed ≠ [] := by
  unfold skippingWord
  split <;> simp [consumed, h]

theorem consumed_skippingString_ne_nil (kind : Fault) {lead : List Char} (culprit after : List Char)
    (h : lead ≠ []) : (skippingString kind lead culprit after).consumed ≠ [] := by
  unfold skippingString
  split <;> simp [consumed, h]

theorem consumed_plain_ne_nil (c : Char) (cs : List Char) : (plain c cs).consumed ≠ [] := by
  unfold plain
  split
  · rename_i symbol _
    exact List.ne_nil_of_length_pos symbol.length_text_pos
  · split
    · simp [consumed]
    · split
      · simp [consumed]
      · unfold unexpected
        split <;> simp [consumed]

/-- Every reading consumes something. -/
theorem consumed_ofChars_ne_nil (c : Char) (cs : List Char) : (ofChars c cs).consumed ≠ [] := by
  unfold ofChars
  split
  · simp [lineComment, consumed]
  · split
    · unfold blockComment
      split
      · simp [consumed]
      · exact consumed_skippingWord_ne_nil _ _ (by simp)
    · split
      · unfold quoted
        split
        · simp [consumed]
        · exact consumed_skippingWord_ne_nil _ _ (by simp)
        · exact consumed_skippingString_ne_nil _ _ _ (by simp)
      · split
        · unfold escaped spanWord
          split
          split
          · simp [consumed]
          · exact consumed_skippingWord_ne_nil _ _ (by simp)
        · split
          · rename_i h
            simp [word, spanWord, consumed, isWordChar_of_isWordStart h]
          · exact consumed_plain_ne_nil c cs

theorem length_rest_ofChars_lt (c : Char) (cs : List Char) :
    (ofChars c cs).rest.length < (c :: cs).length := by
  have hText := congrArg List.length (text_ofChars c cs)
  have hConsumed := List.length_pos_iff.mpr (consumed_ofChars_ne_nil c cs)
  rw [text, List.length_append] at hText
  omega

end Reading

inductive Piece
  | lexeme (lexeme : Lexeme)
  | fault (fault : Fault) (span : Span)
  deriving DecidableEq, Repr

namespace Piece

def lexeme? : Piece → Option Lexeme
  | lexeme l => some l
  | fault _ _ => none

def diagnostic? : Piece → Option Diagnostic
  | lexeme _ => none
  | fault f span => some (f.diagnostic span)

end Piece

def Reading.piece (start : Nat) : Reading → Piece
  | lexeme content slice _ => .lexeme ⟨content, .ofBounds start (start + byteLength slice)⟩
  | fault f lead culprit _ _ =>
    .fault f (.ofBounds (start + byteLength lead) (start + byteLength lead + byteLength culprit))

def lex (start : Nat) : List Char → List Piece
  | [] => []
  | c :: cs =>
    let reading := Reading.ofChars c cs
    reading.piece start :: lex (start + byteLength reading.consumed) reading.rest
termination_by cs => cs.length
decreasing_by exact Reading.length_rest_ofChars_lt c cs

/-- The lexemes of a source, or a diagnostic for each of its faults. -/
def lexemesOf (source : String) : Except ParseError (List Lexeme) :=
  let pieces := lex 0 source.toList
  match pieces.filterMap Piece.diagnostic? with
  | [] => .ok (pieces.filterMap Piece.lexeme?)
  | diagnostics => .error ⟨diagnostics⟩

end DomainAtlas
