import DomainAtlas.Proofs.Editing.WellNamed
import DomainAtlas.Proofs.Printing.RoundTrip
import DomainAtlas.Workbench

/-! # Edited models as written

A model that was edited is written as a document that is read again. An edit takes a relationship as it is given, so
a pattern may be repeated in the model; it is read once. Nothing else is lost.
-/
set_option autoImplicit false

namespace DomainAtlas

/-- The edit brings no relationship that repeats a pattern. -/
def Edit.PatternsDistinct : Edit → Prop
  | .relationship added => added.PatternsDistinct
  | _ => True

namespace Model

variable {model changed : Model}

theorem contextMap_replace {context aggregate : String} {target : Aggregate} {replace : Aggregate → Model}
    {place : Path} (h : model.FirstAggregate context aggregate target replace place) (changed : Aggregate) :
    (replace changed).contextMap = model.contextMap := by
  cases h
  rfl

theorem PatternsDistinct.of_contextMap_eq (h : model.PatternsDistinct)
    (hMap : changed.contextMap = model.contextMap) : changed.PatternsDistinct := by
  intro map hMem
  exact h map (hMap ▸ hMem)

theorem PatternsDistinct.edit (h : model.PatternsDistinct) {edit : Edit} {paths : List Path}
    (hDistinct : edit.PatternsDistinct) (hEdit : model.edit edit = .ok (changed, paths)) :
    changed.PatternsDistinct := by
  cases appends_of_edit hEdit with
  | boundedContext => exact h
  | module => exact h
  | aggregate => exact h
  | moduleAggregate => exact h
  | member _ hTarget => exact h.of_contextMap_eq (contextMap_replace hTarget _)
  | entities _ hTarget => exact h.of_contextMap_eq (contextMap_replace hTarget _)
  | valueObjects _ hTarget => exact h.of_contextMap_eq (contextMap_replace hTarget _)
  | noEntities => exact h
  | noValueObjects => exact h
  | relationship =>
    rintro _ ⟨⟩
    refine forall_mem_concat ?_ hDistinct
    cases hMap : model.contextMap with
    | none => exact fun _ hMem => absurd hMem List.not_mem_nil
    | some map => exact h map hMap

theorem PatternsDistinct.after (h : model.PatternsDistinct) {edit : Edit} (hDistinct : edit.PatternsDistinct) :
    (model.after edit).PatternsDistinct := by
  unfold Model.after
  split
  · rename_i changed paths hEdit
    exact h.edit hDistinct hEdit
  · exact h

theorem PatternsDistinct.afterAll (h : model.PatternsDistinct) {edits : List Edit}
    (hDistinct : ∀ edit ∈ edits, edit.PatternsDistinct) : (model.afterAll edits).PatternsDistinct := by
  induction edits generalizing model with
  | nil => exact h
  | cons edit edits ih =>
    obtain ⟨hFirst, hOthers⟩ := List.forall_mem_cons.mp hDistinct
    exact ih (h.after hFirst) hOthers

end Model

theorem ofSource_print_eq_self_iff {model : Model} (h : model.WellNamed) (width : Nat) :
    Model.ofSource (model.print width) = .ok model ↔ model.PatternsDistinct := by
  rw [ofSource_print_of_wellNamed h, Except.ok.injEq, Model.distinctPatterns_eq_self_iff]

theorem ofSource_print_afterAll {start : Model} (hStart : start.IsInitial) (edits : List Edit) (width : Nat) :
    Model.ofSource ((start.afterAll edits).print width) = .ok (start.afterAll edits).distinctPatterns ∧
      (Model.ofSource ((start.afterAll edits).print width) = .ok (start.afterAll edits) ↔
        (start.afterAll edits).PatternsDistinct) ∧
      ((∀ edit ∈ edits, edit.PatternsDistinct) →
        Model.ofSource ((start.afterAll edits).print width) = .ok (start.afterAll edits)) := by
  have hNamed := hStart.wellNamed_afterAll edits
  obtain ⟨-, hStartDistinct⟩ := Model.wellFormed_iff.mp hStart.wellFormed
  refine ⟨ofSource_print_of_wellNamed hNamed width, ofSource_print_eq_self_iff hNamed width, fun hDistinct => ?_⟩
  exact (ofSource_print_eq_self_iff hNamed width).mpr (hStartDistinct.afterAll hDistinct)

/-- Two contexts, and a relationship between them that is given with `patterns`. -/
def relatedContexts (patterns : List UpstreamPattern) : List Edit :=
  [.boundedContext "Sales", .boundedContext "Billing",
    .relationship (.directed { upstream := "Sales", downstream := "Billing", upstreamPatterns := patterns })]

theorem ofSource_print_afterAll_relatedContexts :
    ({} : Model).IsInitial ∧
      (∀ edit ∈ relatedContexts [.publishedLanguage, .openHostService], edit.PatternsDistinct) ∧
      Model.ofSource ((({} : Model).afterAll (relatedContexts [.publishedLanguage, .openHostService])).print 4) =
        .ok (({} : Model).afterAll (relatedContexts [.publishedLanguage, .openHostService])) := by
  have hDistinct : ∀ edit ∈ relatedContexts [.publishedLanguage, .openHostService], edit.PatternsDistinct := by
    simp [relatedContexts, Edit.PatternsDistinct, Relationship.PatternsDistinct,
      DirectedRelationship.PatternsDistinct]
  exact ⟨.inl rfl, hDistinct, (ofSource_print_afterAll (.inl rfl) _ 4).2.2 hDistinct⟩

/-- An edit keeps both of two equal patterns, and reading keeps one of them. -/
theorem ofSource_text_ne_of_repeated_pattern :
    Model.ofSource (({} : Model).afterAll (relatedContexts [.openHostService, .openHostService])).text ≠
      .ok (({} : Model).afterAll (relatedContexts [.openHostService, .openHostService])) := by
  intro h
  have hMap := (wellFormed_of_ofSource h).contextMap
    { relationships := [.directed {
        upstream := "Sales"
        downstream := "Billing"
        upstreamPatterns := [.openHostService, .openHostService] }] } (by decide +kernel)
  have hPatterns := (hMap.relationships _ List.mem_cons_self).upstreamPatterns
  simp at hPatterns

end DomainAtlas
