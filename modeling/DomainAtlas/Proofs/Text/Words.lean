import DomainAtlas.Text.Word

/-! # Texts reduced to words

What a text is reduced to is a word, unless the text has no word character at all; and a word is what it is reduced to
itself. The characters of words are told here by their ranges.
-/
set_option autoImplicit false

namespace DomainAtlas

open Text

/-! ## The characters of words -/

/-- A Latin letter or an underscore. -/
def IsNameStart (c : Char) : Prop :=
  ('A' ≤ c ∧ c ≤ 'Z') ∨ ('a' ≤ c ∧ c ≤ 'z') ∨ c = '_'

/-- A Latin letter, an underscore or a decimal digit. -/
def IsNameChar (c : Char) : Prop :=
  IsNameStart c ∨ ('0' ≤ c ∧ c ≤ '9')

def IsIdentifier (text : String) : Prop :=
  ∃ c cs, text.toList = c :: cs ∧ IsNameStart c ∧ ∀ d ∈ cs, IsNameChar d

theorem isWordStart_iff {c : Char} : isWordStart c = true ↔ IsNameStart c := by
  have hRanges : isWordStart c =
      (decide ('A' ≤ c ∧ c ≤ 'Z') || (decide ('a' ≤ c) && decide (c ≤ 'z')) || c == '_') := rfl
  rw [hRanges, IsNameStart]
  simp only [Bool.or_eq_true, Bool.and_eq_true, decide_eq_true_eq, beq_iff_eq, or_assoc]

theorem isWordChar_iff {c : Char} : isWordChar c = true ↔ IsNameChar c := by
  rw [IsNameChar, ← isWordStart_iff, isWordChar, isWordStart, Char.isAlphanum, Char.isDigit]
  simp only [Bool.or_eq_true, Bool.and_eq_true, decide_eq_true_eq]
  rw [or_right_comm]
  exact Iff.rfl

theorem isWord_iff {text : String} : isWord text = true ↔ IsIdentifier text := by
  rw [isWord, IsIdentifier]
  cases text.toList with
  | nil => simp [isWordChars]
  | cons c cs =>
    rw [isWordChars, Bool.and_eq_true, List.all_eq_true, isWordStart_iff]
    simp only [isWordChar_iff]
    constructor
    · rintro ⟨hStart, hOthers⟩
      exact ⟨c, cs, rfl, hStart, hOthers⟩
    · rintro ⟨_, _, hCons, hStart, hOthers⟩
      cases hCons
      exact ⟨hStart, hOthers⟩

theorem isWordStart_of_not_isDigit {c : Char} (h : isWordChar c = true) (hDigit : c.isDigit = false) :
    isWordStart c = true := by
  simpa [isWordChar, isWordStart, Char.isAlphanum, hDigit] using h

theorem not_isDigit_of_isWordStart {c : Char} (h : isWordStart c = true) : c.isDigit = false := by
  refine Bool.eq_false_iff.mpr fun hDigit => ?_
  obtain ⟨-, hHigh⟩ : '0' ≤ c ∧ c ≤ '9' :=
    (Bool.and_eq_true_iff.mp hDigit).imp of_decide_eq_true of_decide_eq_true
  rcases isWordStart_iff.mp h with ⟨hUpper, -⟩ | ⟨hLower, -⟩ | rfl
  · exact absurd (Char.le_trans hUpper hHigh) (by decide)
  · exact absurd (Char.le_trans hLower hHigh) (by decide)
  · exact absurd hHigh (by decide)

/-! ## What a text is reduced to -/

theorem wordOf_eq_empty_iff {raw : String} : wordOf raw = "" ↔ raw.toList.filter isWordChar = [] := by
  unfold wordOf
  split
  · rename_i hNone
    exact iff_of_true rfl hNone
  · rename_i c cs hSome
    rw [hSome]
    refine iff_of_false (fun hEmpty => ?_) (List.cons_ne_nil c cs)
    have hList := congrArg String.toList hEmpty
    rw [String.toList_ofList] at hList
    split at hList <;> cases hList

theorem wordOf_eq_empty_iff_forall {raw : String} : wordOf raw = "" ↔ ∀ c ∈ raw.toList, ¬ IsNameChar c := by
  rw [wordOf_eq_empty_iff, List.filter_eq_nil_iff]
  simp only [isWordChar_iff]

theorem isWord_wordOf {raw : String} (h : wordOf raw ≠ "") : isWord (wordOf raw) = true := by
  have hKept : ∀ c ∈ raw.toList.filter isWordChar, isWordChar c = true := fun c hc => (List.mem_filter.mp hc).2
  unfold wordOf at h ⊢
  split
  · rename_i hNone
    rw [hNone] at h
    exact absurd rfl h
  · rename_i c cs hSome
    rw [hSome] at hKept
    rw [isWord, String.toList_ofList]
    cases hDigit : c.isDigit with
    | true =>
      have hAll : (c :: cs).all isWordChar = true := List.all_eq_true.mpr hKept
      rw [if_pos rfl, isWordChars, hAll]
      decide
    | false =>
      obtain ⟨hFirst, hOthers⟩ := List.forall_mem_cons.mp hKept
      rw [if_neg (by decide), isWordChars, isWordStart_of_not_isDigit hFirst hDigit, List.all_eq_true.mpr hOthers]
      rfl

theorem wordOf_eq_self {name : String} (h : isWord name = true) : wordOf name = name := by
  obtain ⟨c, cs, hList, hStart, hOthers⟩ := isWord_iff.mp h
  have hFirst : isWordStart c = true := isWordStart_iff.mpr hStart
  have hKept : name.toList.filter isWordChar = c :: cs := by
    rw [hList]
    refine List.filter_eq_self.mpr (List.forall_mem_cons.mpr ⟨isWordChar_of_isWordStart hFirst, ?_⟩)
    exact fun d hd => isWordChar_iff.mpr (hOthers d hd)
  have hName : wordOf name = String.ofList (if c.isDigit then '_' :: c :: cs else c :: cs) := by
    rw [wordOf, hKept]
  rw [hName, not_isDigit_of_isWordStart hFirst, if_neg Bool.false_ne_true, ← hList, String.ofList_toList]

theorem wordOf_wordOf (raw : String) : wordOf (wordOf raw) = wordOf raw := by
  by_cases hEmpty : wordOf raw = ""
  · rw [hEmpty]
    rfl
  · exact wordOf_eq_self (isWord_wordOf hEmpty)

end DomainAtlas
