import DomainAtlas.Proofs.Model.OfSource
import DomainAtlas.Proofs.Printing.Maps

/-! # Printing and reading again

The well-formed models are those that sources describe, and those whose canonical text describes them
again, at whatever width it is indented.
-/
set_option autoImplicit false

namespace DomainAtlas

/-- Types are read in canonical form, and patterns once each. -/
theorem ofSource_print_of_mapTypes {model : Model} (h : (model.mapTypes canonicalType).WellNamed) (width : Nat) :
    Model.ofSource (model.print width) = .ok (model.mapTypes canonicalType).distinctPatterns := by
  obtain ⟨declarations, hModel, hMaps, tokens, hDocument, hSpells⟩ := Phrase.spelt_document h width
  have hScans := hSpells [] [] trivial .nil
  rw [List.append_nil, List.append_nil] at hScans
  exact ofSource_iff.mpr ⟨tokens, declarations, hScans, hDocument, hMaps, hModel⟩

theorem ofSource_print_of_wellNamed {model : Model} (h : model.WellNamed) (width : Nat) :
    Model.ofSource (model.print width) = .ok model.distinctPatterns := by
  have hPrinted := @ofSource_print_of_mapTypes model (h.mapTypes_eq_self.symm ▸ h) width
  rwa [h.mapTypes_eq_self] at hPrinted

theorem ofSource_print_of_wellFormed {model : Model} (h : model.WellFormed) (width : Nat) :
    Model.ofSource (model.print width) = .ok model := by
  obtain ⟨hNamed, hDistinct⟩ := Model.wellFormed_iff.mp h
  rw [ofSource_print_of_wellNamed hNamed, Model.distinctPatterns_eq_self_iff.mpr hDistinct]

theorem ofSource_print_iff_wellFormed :
    (∀ (model : Model) (width : Nat), Model.ofSource (model.print width) = .ok model ↔ model.WellFormed) ∧
    (∀ model : Model, (∃ source, Model.ofSource source = .ok model) ↔ model.WellFormed) ∧
    ∀ (source : String) (model : Model) (width : Nat), Model.ofSource source = .ok model →
      ∃ again, Model.ofSource (model.print width) = .ok again ∧ again = model ∧
        again.print width = model.print width := by
  refine ⟨?_, ?_, ?_⟩
  · intro model width
    exact ⟨wellFormed_of_ofSource, fun h => ofSource_print_of_wellFormed h width⟩
  · intro model
    constructor
    · rintro ⟨source, hSource⟩
      exact wellFormed_of_ofSource hSource
    · intro h
      exact ⟨model.print 2, ofSource_print_of_wellFormed h 2⟩
  · intro source model width hSource
    exact ⟨model, ofSource_print_of_wellFormed (wellFormed_of_ofSource hSource) width, rfl, rfl⟩

end DomainAtlas
