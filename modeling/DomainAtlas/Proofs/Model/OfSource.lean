import DomainAtlas.Proofs.Grammar.Documents
import DomainAtlas.Proofs.Grammar.Yields
import DomainAtlas.Proofs.Token.Slices
import DomainAtlas.Source

/-! # Models of sources

A source describes a model if and only if it is scanned without fault, its tokens are a document, and the
document has no second context map. Whatever it describes is well-formed.
-/
set_option autoImplicit false

namespace DomainAtlas

open Text

theorem mapHeader?_eq (placed : Placed Declaration) :
    mapHeader? placed = placed.value.map?.map fun _ => placed.span := by
  obtain ⟨value, span⟩ := placed
  cases value <;> rfl

theorem length_mapHeaders (declared : List (Placed Declaration)) :
    (declared.filterMap mapHeader?).length = ((declared.map (·.value)).filterMap Declaration.map?).length := by
  induction declared with
  | nil => rfl
  | cons placed declared ih =>
    rw [List.map_cons, List.filterMap_cons, List.filterMap_cons, mapHeader?_eq]
    cases placed.value.map? with
    | none => exact ih
    | some decl => simpa using ih

theorem repeatedMaps_eq_nil_iff (declared : List (Placed Declaration)) :
    repeatedMaps declared = [] ↔ ((declared.map (·.value)).filterMap Declaration.map?).length ≤ 1 := by
  rw [← length_mapHeaders, repeatedMaps]
  split
  · rename_i hNone
    simp [hNone]
  · rename_i first others hSome
    rw [hSome, List.map_eq_nil_iff, List.length_cons]
    cases others <;> simp

theorem ofSource_iff {source : String} {model : Model} :
    Model.ofSource source = .ok model ↔
      ∃ tokens declarations, Scans source.toList tokens ∧ Phrase.document tokens declarations ∧
        (declarations.filterMap Declaration.map?).length ≤ 1 ∧ Model.ofDeclarations declarations = model := by
  constructor
  · intro h
    cases hLexemes : lexemesOf source with
    | error error =>
      rw [Model.ofSource, hLexemes] at h
      cases h
    | ok lexemes =>
      cases hDeclared : declarationsOf lexemes with
      | error error =>
        simp only [Model.ofSource, hLexemes, documentOf, hDeclared, bind, Except.bind] at h
        cases h
      | ok declared =>
        cases hRepeated : repeatedMaps declared with
        | cons diagnostic diagnostics =>
          simp only [Model.ofSource, hLexemes, documentOf, hDeclared, hRepeated, bind, Except.bind] at h
          cases h
        | nil =>
          simp only [Model.ofSource, hLexemes, documentOf, hDeclared, hRepeated, bind, Except.bind, pure,
            Except.pure] at h
          cases h
          exact ⟨_, _, lexemesOf_iff_scans.mp ⟨lexemes, hLexemes, rfl⟩, document_of_declarationsOf hDeclared,
            (repeatedMaps_eq_nil_iff declared).mp hRepeated, rfl⟩
  · rintro ⟨tokens, declarations, hScans, hDocument, hMaps, rfl⟩
    obtain ⟨lexemes, hLexemes, rfl⟩ := lexemesOf_iff_scans.mpr hScans
    obtain ⟨declared, hDeclared, rfl⟩ := declarationsOf_of_document hDocument
    have hRepeated := (repeatedMaps_eq_nil_iff declared).mpr hMaps
    simp only [Model.ofSource, hLexemes, documentOf, hDeclared, hRepeated, bind, Except.bind, pure, Except.pure]

/-! ## Names among the tokens -/

theorem Scans.wordNames {cs : List Char} {tokens : List Token} (h : Scans cs tokens) : WordNames tokens := by
  induction h with
  | nil =>
    intro n hn
    cases hn
  | token hReading _ ih =>
    intro n hn
    rcases List.mem_cons.mp hn with rfl | hn
    · exact (slice_of_name (Reading.writtenAs_of_ofChars hReading)).2
    · exact ih n hn
  | trivia _ _ ih => exact ih

theorem wellFormed_of_ofSource {source : String} {model : Model} (h : Model.ofSource source = .ok model) :
    model.WellFormed := by
  obtain ⟨tokens, declarations, hScans, hDocument, -, rfl⟩ := ofSource_iff.mp h
  exact Phrase.yields_document tokens declarations hScans.wordNames hDocument

end DomainAtlas
