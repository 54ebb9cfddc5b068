import DomainAtlas.Proofs.Printing.Spelling
import DomainAtlas.Proofs.Text.Words
import DomainAtlas.Proofs.Token.Literals
import DomainAtlas.Proofs.Token.Slices

/-! # Names as written

The names that tokens can have are the words that texts are reduced to. As it is written for an element, or for an
attribute, a parameter or an operation, such a word is read as that name, be it spelt like a keyword or not.
-/
set_option autoImplicit false

namespace DomainAtlas

open Text

/-! ## Reading what is written for a name -/

/-- The text is one name wherever it stands, unless what comes after it goes on with a word character. -/
structure ReadAsName (written name : String) : Prop where
  alone : lexemesOf written = .ok [⟨.token (.name name), { start := 0, stop := written.utf8ByteSize }⟩]
  followed : ∀ (following : String) (start : Nat), (∀ c ∈ following.toList.head?, ¬ IsNameChar c) →
    lex start (written ++ following).toList =
      .lexeme ⟨.token (.name name), { start := start, stop := start + written.utf8ByteSize }⟩
        :: lex (start + written.utf8ByteSize) following.toList

theorem ofBounds_add (start size : Nat) :
    Span.ofBounds start (start + size) = { start := start, stop := start + size } := by
  simp [Span.ofBounds]

theorem endsWord_iff {rest : List Char} : EndsWord rest ↔ ∀ c ∈ rest.head?, ¬ IsNameChar c := by
  simp only [EndsWord, ← isWordChar_iff, Bool.not_eq_true]

theorem readAsName_of_ofChars {written name : String} {c : Char} {cs : List Char} (hList : written.toList = c :: cs)
    (h : ∀ rest, EndsWord rest →
      Reading.ofChars c (cs ++ rest) = .lexeme (.token (.name name)) written.toList rest) :
    ReadAsName written name := by
  have hFollowed (following : String) (start : Nat) (hEnds : ∀ c ∈ following.toList.head?, ¬ IsNameChar c) :
      lex start (written ++ following).toList =
        .lexeme ⟨.token (.name name), { start := start, stop := start + written.utf8ByteSize }⟩
          :: lex (start + written.utf8ByteSize) following.toList := by
    rw [String.toList_append, hList, List.cons_append, lex_of_lexeme (h _ (endsWord_iff.mpr hEnds)),
      ← utf8ByteSize_eq_byteLength, ofBounds_add]
  refine ⟨lexemesOf_eq_ok_iff.mpr ?_, hFollowed⟩
  have hAlone := hFollowed "" 0 fun _ hNone => nomatch hNone
  rw [String.append_empty, String.toList_empty, lex] at hAlone
  simp only [Nat.zero_add] at hAlone
  rw [hAlone]
  exact ⟨rfl, rfl⟩

/-- A caret makes a name of any word, and no other word than a keyword needs it. -/
theorem readAsName_of_isWord {name : String} {escaped : Bool} (hWord : isWord name = true)
    (hNot : escaped = false → isKeyword name = false) :
    ReadAsName (if escaped then "^" ++ name else name) name := by
  cases escaped with
  | true =>
    have hList : ("^" ++ name).toList = '^' :: name.toList := String.toList_append
    refine readAsName_of_ofChars hList fun rest hRest => ?_
    rw [ofChars_escaped hWord hRest, ← hList]
    rfl
  | false =>
    obtain ⟨c, cs, hList, -⟩ := isWordChars_iff.mp hWord
    refine readAsName_of_ofChars hList fun rest hRest => ?_
    rw [ofChars_word hList hWord hRest, tokenOfWord_of_not_isKeyword (hNot rfl)]
    rfl

theorem readAsName_writtenName {name : String} (h : isWord name = true) : ReadAsName (writtenName name) name :=
  readAsName_of_isWord h id

theorem readAsName_writtenMemberName {name : String} (h : isWord name = true) :
    ReadAsName (writtenMemberName name) name :=
  readAsName_of_isWord h isKeyword_of_not_isReservedWord

/-- Names are words wherever they are read, also in a source with faults. -/
theorem isWord_of_mem_lex {name : String} {span : Span} {start : Nat} {cs : List Char}
    (h : .lexeme ⟨.token (.name name), span⟩ ∈ lex start cs) : isWord name = true := by
  fun_induction lex start cs with
  | case1 => cases h
  | case2 start c cs reading ih =>
    rcases List.mem_cons.mp h with hFirst | hLater
    · cases hReading : reading with
      | lexeme content slice rest =>
        rw [hReading] at hFirst
        cases hFirst
        exact (slice_of_name (Reading.writtenAs_of_ofChars hReading)).2
      | fault kind lead culprit skipped rest =>
        rw [hReading] at hFirst
        cases hFirst
    · exact ih hLater

theorem isIdentifier_iff_mem_lex {name : String} :
    IsIdentifier name ↔ ∃ (source : String) (span : Span), .lexeme ⟨.token (.name name), span⟩ ∈ lex 0 source.toList := by
  rw [← isWord_iff]
  constructor
  · intro hWord
    have hRead := (readAsName_writtenName hWord).followed "" 0 fun _ hNone => nomatch hNone
    exact ⟨_, _, hRead ▸ List.mem_cons_self⟩
  · rintro ⟨source, span, hMem⟩
    exact isWord_of_mem_lex hMem

/-! ## What any text is reduced to -/

theorem isIdentifier_iff_wordOf {name : String} : IsIdentifier name ↔ name ≠ "" ∧ wordOf name = name := by
  rw [← isWord_iff]
  constructor
  · intro hWord
    refine ⟨?_, wordOf_eq_self hWord⟩
    rintro rfl
    cases hWord
  · rintro ⟨hName, hSelf⟩
    rw [← hSelf] at hName ⊢
    exact isWord_wordOf hName

/-- Nothing is left of a text without word characters. What is left of any other is a name as tokens have them, and all
such names are reached, each from itself. -/
theorem wordOf_eq_empty_iff_and_readAsName (raw : String) :
    (wordOf raw = "" ↔ ∀ c ∈ raw.toList, ¬ IsNameChar c) ∧
    (wordOf raw ≠ "" → IsIdentifier (wordOf raw) ∧ ReadAsName (writtenName (wordOf raw)) (wordOf raw) ∧
      ReadAsName (writtenMemberName (wordOf raw)) (wordOf raw)) ∧
    wordOf (wordOf raw) = wordOf raw ∧
    ∀ name, (IsIdentifier name ↔ name ≠ "" ∧ wordOf name = name) ∧
      (IsIdentifier name ↔
        ∃ (source : String) (span : Span), .lexeme ⟨.token (.name name), span⟩ ∈ lex 0 source.toList) := by
  refine ⟨wordOf_eq_empty_iff_forall, fun hName => ?_, wordOf_wordOf raw, fun name => ?_⟩
  · have hWord := isWord_wordOf hName
    exact ⟨isWord_iff.mp hWord, readAsName_writtenName hWord, readAsName_writtenMemberName hWord⟩
  · exact ⟨isIdentifier_iff_wordOf, isIdentifier_iff_mem_lex⟩

/-- A word that differs from a keyword in the case of a letter is written in two ways. -/
theorem wordOf_eq_empty_iff_and_readAsName_type :
    wordOf "«Type»" = "Type" ∧ IsIdentifier "Type" ∧ ReadAsName "Type" "Type" ∧ ReadAsName "^Type" "Type" := by
  have hName : wordOf "«Type»" = "Type" := by decide +kernel
  have hWritten : writtenName "Type" = "Type" ∧ writtenMemberName "Type" = "^Type" := by decide +kernel
  have hRead := (wordOf_eq_empty_iff_and_readAsName "«Type»").2.1 (by rw [hName]; decide)
  rw [hName, hWritten.1, hWritten.2] at hRead
  exact ⟨hName, hRead⟩

/-- No word starts with a digit. -/
example : wordOf "3-D model" = "_3Dmodel" := by decide +kernel

end DomainAtlas
