import DomainAtlas.Proofs.Model.WellFormed
import DomainAtlas.Proofs.Printing.Spelling
import DomainAtlas.Proofs.Text.Trim
import DomainAtlas.TypeGuard

/-! # Types as written

The written form of a canonical type puts carets before names that are spelt like keywords and changes
nothing else, so it is read as the type that the canonical form stands for.
-/
set_option autoImplicit false

namespace DomainAtlas

open Text

theorem writtenType_trim (type : String) : writtenType (trim type) = writtenType type := by
  simp only [writtenType, trim_trim]

/-! ## The three shapes -/

theorem ne_of_isWordChar {c d : Char} (h : isWordChar c = true) (hd : isWordChar d = false) : c ≠ d := by
  rintro rfl
  rw [h] at hd
  cases hd

theorem notAngle_of_isWordChar {c : Char} (h : isWordChar c = true) : (c != '<') = true :=
  bne_iff_ne.mpr (ne_of_isWordChar h (by decide))

theorem writtenType_named {n : String} (h : isWord n = true) : writtenType n = writtenName n := by
  obtain ⟨c, cs, hList, hStart, hAll⟩ := isWordChars_iff.mp h
  have hDash : c ≠ '-' := ne_of_isWordChar (isWordChar_of_isWordStart hStart) (by decide)
  have hAngle : (c :: cs).dropWhile (· != '<') = [] := by
    rw [← hList, ← List.append_nil n.toList]
    exact List.dropWhile_append_of_pos fun d hd => notAngle_of_isWordChar (hAll d hd)
  simp only [writtenType, trim_word h, hList]
  split
  · rename_i target hTarget
    exact absurd (List.cons.inj hTarget).1 hDash
  · rw [hAngle]

theorem toList_reference (n : String) : ("- " ++ n).toList = '-' :: ' ' :: n.toList := by
  rw [String.toList_append]
  rfl

theorem trim_reference {n : String} (h : isWord n = true) : trim ("- " ++ n) = "- " ++ n := by
  rw [trim, trimChars_eq_self, String.ofList_toList]
  · rw [toList_reference]
    intro c hc
    obtain rfl : '-' = c := by simpa using hc
    decide
  · intro c hc
    obtain ⟨d, ds, hList, -⟩ := isWordChars_iff.mp h
    rw [toList_reference, hList, List.getLast?_cons_cons, List.getLast?_cons_cons, ← hList] at hc
    exact isBlank_of_isWordChar (isWordChar_of_mem_word h (List.mem_of_mem_getLast? hc))

theorem writtenType_reference {n : String} (h : isWord n = true) :
    writtenType ("- " ++ n) = "- " ++ writtenName n := by
  have hTarget : trim (String.ofList (' ' :: n.toList)) = n := by
    rw [trim, String.toList_ofList, trimChars_space, trimChars_word h, String.ofList_toList]
  simp only [writtenType, trim_reference h, toList_reference, hTarget]

theorem toList_collection (kind e : String) :
    (kind ++ "<" ++ e ++ ">").toList = kind.toList ++ '<' :: (e.toList ++ ['>']) := by
  simp [String.toList_append]

theorem isWord_collectionKind {kind : String} (h : kind = "List" ∨ kind = "Set") : isWord kind = true := by
  rcases h with rfl | rfl <;> decide

theorem trim_collection {kind : String} (e : String) (hKind : kind = "List" ∨ kind = "Set") :
    trim (kind ++ "<" ++ e ++ ">") = kind ++ "<" ++ e ++ ">" := by
  obtain ⟨c, cs, hList, hStart, -⟩ := isWordChars_iff.mp (isWord_collectionKind hKind)
  rw [trim, trimChars_eq_self, String.ofList_toList]
  · rw [toList_collection, hList]
    intro d hd
    obtain rfl : c = d := by simpa using hd
    exact isBlank_of_isWordChar (isWordChar_of_isWordStart hStart)
  · rw [toList_collection, ← List.cons_append, ← List.append_assoc, List.getLast?_concat]
    intro d hd
    obtain rfl : '>' = d := by simpa using hd
    decide

theorem writtenType_collection {kind : String} {e : String} (hKind : kind = "List" ∨ kind = "Set")
    (h : isWord e = true) : writtenType (kind ++ "<" ++ e ++ ">") = kind ++ "<" ++ writtenName e ++ ">" := by
  have hWord := isWord_collectionKind hKind
  obtain ⟨c, cs, hList, hStart, hAll⟩ := isWordChars_iff.mp hWord
  have hDash : c ≠ '-' := ne_of_isWordChar (isWordChar_of_isWordStart hStart) (by decide)
  have hNot : ∀ d ∈ kind.toList, (d != '<') = true := fun d hd => notAngle_of_isWordChar (hAll d hd)
  have hDrop : (kind.toList ++ '<' :: (e.toList ++ ['>'])).dropWhile (· != '<') = '<' :: (e.toList ++ ['>']) := by
    rw [List.dropWhile_append_of_pos hNot]
    exact List.dropWhile_cons_of_neg (by simp)
  have hTake : (kind.toList ++ '<' :: (e.toList ++ ['>'])).takeWhile (· != '<') = kind.toList := by
    rw [List.takeWhile_append_of_pos hNot, List.takeWhile_cons_of_neg (by simp), List.append_nil]
  simp only [writtenType, trim_collection e hKind, toList_collection]
  split
  · rename_i target hTarget
    rw [hList] at hTarget
    exact absurd (List.cons.inj hTarget).1 hDash
  · rw [hDrop, hTake, String.ofList_toList, trim_word hWord]
    simp [writtenType.ofCollection, hKind, trim_word h]

theorem collectionKind_text (kind : CollectionKind) : kind.keyword.text = "List" ∨ kind.keyword.text = "Set" := by
  cases kind
  · exact .inl rfl
  · exact .inr rfl

/-- The written form of a canonical type, with a name in one of three shapes. -/
theorem writtenType_cases_of_canonical {type : String} (h : IsCanonicalType type) :
    ∃ n, isWord n = true ∧ (writtenType type = writtenName n ∨ writtenType type = "- " ++ writtenName n ∨
      ∃ kind : CollectionKind, writtenType type = kind.keyword.text ++ "<" ++ writtenName n ++ ">") := by
  obtain ⟨canonical, hWord, rfl⟩ := h
  cases canonical with
  | named n => exact ⟨n, hWord, .inl (writtenType_named hWord)⟩
  | reference n => exact ⟨n, hWord, .inr (.inl (writtenType_reference hWord))⟩
  | collection kind n =>
    exact ⟨n, hWord, .inr (.inr ⟨kind, writtenType_collection (collectionKind_text kind) hWord⟩)⟩

theorem endsSymbol_lessThan {n : String} (h : isWord n = true) (rest : List Char) :
    Symbol.lessThan.Ends ((writtenName n).toList ++ rest) := by
  obtain ⟨c, cs, hList, hStart, hAll⟩ := isWordChars_iff.mp h
  unfold writtenName
  split
  · simp [Symbol.Ends, String.toList_append]
  · have hDash : c ≠ '-' := ne_of_isWordChar (isWordChar_of_isWordStart hStart) (by decide)
    simp [Symbol.Ends, hList, hDash]

namespace Phrase

theorem endsBefore_lessThan : EndsBefore "<" := ⟨'<', [], rfl, by decide⟩

theorem spelt_typeRef {type : TypeRef} (h : isWord type.baseName = true) :
    typeRef.Spelt EndsWord (writtenType type.text) type := by
  cases type with
  | named n =>
    change isWord n = true at h
    rw [TypeRef.text, writtenType_named h]
    exact (((spelt_name h).map TypeRef.named).inr referenceType).inr collectionType
  | reference n =>
    change isWord n = true at h
    rw [TypeRef.text, writtenType_reference h]
    apply Spelt.inr
    apply Spelt.inl
    have hDash : (symbol .dash).Spelt anyText "- " () := by
      refine ⟨[.symbol .dash], symbol_iff.mpr rfl, ?_⟩
      exact (spells_symbol .dash).append spells_space fun rest _ => by simp [Symbol.Ends]
    exact hDash.bind ((spelt_name h).map TypeRef.reference)
  | collection kind e =>
    change isWord e = true at h
    have hKind := collectionKind_text kind
    have hOf : CollectionKind.ofKeyword? kind.keyword = some kind := by
      cases kind <;> rfl
    rw [TypeRef.text, writtenType_collection hKind h, String.append_assoc, String.append_assoc]
    apply Spelt.inl
    have hOpen : (symbol .lessThan).Spelt Symbol.lessThan.Ends "<" () :=
      ⟨_, symbol_iff.mpr rfl, spells_symbol .lessThan⟩
    have hClose : (symbol .greaterThan).Spelt EndsWord ">" () :=
      (spelt_symbol (s := .greaterThan) fun _ => trivial).closed EndsWord
    refine (spelt_keywordValue hOf).bindText ?_ (endsBefore_lessThan.append _)
    refine hOpen.bindWith ?_ fun rest _ => ?_
    · exact (spelt_name h).bindText (hClose.map _) ⟨'>', [], rfl, by decide⟩
    · rw [String.toList_append, List.append_assoc]
      exact endsSymbol_lessThan h _

end Phrase

end DomainAtlas
