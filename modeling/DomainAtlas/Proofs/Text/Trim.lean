import DomainAtlas.Proofs.Token.Scan

/-! # Trimming

A text is what is left of it when it is trimmed, between blanks. A word has none to be trimmed.
-/
set_option autoImplicit false

namespace DomainAtlas

open Text

theorem dropWhile_isBlank {cs : List Char} (h : ∀ c ∈ cs.head?, isBlank c = false) :
    cs.dropWhile isBlank = cs := by
  cases cs with
  | nil => rfl
  | cons c cs => exact List.dropWhile_cons_of_neg (by simp [h c rfl])

theorem trimChars_eq_self {cs : List Char} (hHead : ∀ c ∈ cs.head?, isBlank c = false)
    (hLast : ∀ c ∈ cs.getLast?, isBlank c = false) : trimChars cs = cs := by
  have hReverse : ∀ c ∈ cs.reverse.head?, isBlank c = false := by
    simpa using hLast
  rw [trimChars, dropWhile_isBlank hHead, dropWhile_isBlank hReverse, List.reverse_reverse]

theorem isBlank_of_isWordChar {c : Char} (h : isWordChar c = true) : isBlank c = false := by
  cases hBlank : isBlank c with
  | false => rfl
  | true => exact absurd h (by simp [isWordChar_of_isBlank hBlank])

theorem isWordChar_of_mem_word {w : String} (h : isWord w = true) {c : Char} (hc : c ∈ w.toList) :
    isWordChar c = true := by
  obtain ⟨_, _, _, _, hAll⟩ := isWordChars_iff.mp h
  exact hAll c hc

theorem trimChars_word {w : String} (h : isWord w = true) : trimChars w.toList = w.toList := by
  apply trimChars_eq_self
  · intro c hc
    exact isBlank_of_isWordChar (isWordChar_of_mem_word h (List.mem_of_mem_head? hc))
  · intro c hc
    exact isBlank_of_isWordChar (isWordChar_of_mem_word h (List.mem_of_mem_getLast? hc))

theorem trim_word {w : String} (h : isWord w = true) : trim w = w := by
  rw [trim, trimChars_word h, String.ofList_toList]

theorem trimChars_split (cs : List Char) :
    ∃ front back, cs = front ++ (trimChars cs ++ back) ∧ (∀ c ∈ front, isBlank c = true) ∧
      ∀ c ∈ back, isBlank c = true := by
  have hBack : ∀ c ∈ ((cs.dropWhile isBlank).reverse.takeWhile isBlank).reverse, isBlank c = true := by
    intro c hc
    exact List.all_eq_true.mp List.all_takeWhile c (List.mem_reverse.mp hc)
  refine ⟨cs.takeWhile isBlank, _, ?_, List.all_eq_true.mp List.all_takeWhile, hBack⟩
  rw [trimChars, ← List.reverse_append, List.takeWhile_append_dropWhile, List.reverse_reverse,
    List.takeWhile_append_dropWhile]

theorem mem_of_mem_trimChars {cs : List Char} {c : Char} (h : c ∈ trimChars cs) : c ∈ cs := by
  obtain ⟨front, back, hSplit, -⟩ := trimChars_split cs
  rw [hSplit]
  exact List.mem_append_right _ (List.mem_append_left _ h)

theorem trimChars_between {front word back : List Char} (hFront : ∀ c ∈ front, isBlank c = true)
    (hWord : isWordChars word = true) (hBack : ∀ c ∈ back, isBlank c = true) :
    trimChars (front ++ (word ++ back)) = word := by
  obtain ⟨c, cs, rfl, hStart, hAll⟩ := isWordChars_iff.mp hWord
  have hNotBlank : ∀ d ∈ (c :: cs), isBlank d = false := fun d hd => isBlank_of_isWordChar (hAll d hd)
  have hLast : ∀ d ∈ (c :: cs).reverse.head?, isBlank d = false := by
    intro d hd
    exact hNotBlank d (List.mem_reverse.mp (List.mem_of_mem_head? hd))
  have hBackReverse : ∀ d ∈ back.reverse, isBlank d = true := fun d hd => hBack d (List.mem_reverse.mp hd)
  have hFirst : ((c :: cs) ++ back).dropWhile isBlank = (c :: cs) ++ back :=
    dropWhile_isBlank fun d hd => hNotBlank d (List.mem_of_mem_head? (by simpa using hd))
  rw [trimChars, List.dropWhile_append_of_pos hFront, hFirst, List.reverse_append,
    List.dropWhile_append_of_pos hBackReverse, dropWhile_isBlank hLast, List.reverse_reverse]

theorem not_isBlank_of_head {cs : List Char} {c : Char} (h : c ∈ (cs.dropWhile isBlank).head?) :
    isBlank c = false := by
  have hHead := List.head?_dropWhile_not isBlank cs
  rwa [Option.mem_def.mp h] at hHead

theorem not_isBlank_of_head_trimChars {cs : List Char} {c : Char} (h : c ∈ (trimChars cs).head?) :
    isBlank c = false := by
  have hPrefix : trimChars cs <+: cs.dropWhile isBlank := by
    rw [← List.reverse_suffix, trimChars, List.reverse_reverse]
    exact List.dropWhile_suffix isBlank
  obtain ⟨others, hOthers⟩ := hPrefix
  apply not_isBlank_of_head
  rw [← hOthers, List.head?_append, Option.mem_def.mp h]
  rfl

theorem trimChars_trimChars (cs : List Char) : trimChars (trimChars cs) = trimChars cs := by
  apply trimChars_eq_self
  · exact fun c hc => not_isBlank_of_head_trimChars hc
  · intro c hc
    rw [trimChars, List.getLast?_reverse] at hc
    exact not_isBlank_of_head hc

theorem toList_trim (text : String) : (trim text).toList = trimChars text.toList := by
  rw [trim, String.toList_ofList]

theorem trim_trim (text : String) : trim (trim text) = trim text := by
  rw [trim, toList_trim, trimChars_trimChars, ← toList_trim, String.ofList_toList]

theorem trimChars_space (cs : List Char) : trimChars (' ' :: cs) = trimChars cs := by
  have hSpace : isBlank ' ' = true := by decide
  rw [trimChars, List.dropWhile_cons_of_pos hSpace, trimChars]

end DomainAtlas
