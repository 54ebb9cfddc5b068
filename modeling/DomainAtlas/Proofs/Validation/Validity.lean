import DomainAtlas.Proofs.Validation.SharedNames

/-! # Validity

The reports without errors are those of the models that keep the invariants of the language. The
invariants speak of the model as it is built up, not of the rules and of the order in which they look at it.
-/
set_option autoImplicit false

namespace DomainAtlas

open Validation

/-- The invariants of the language. -/
structure Model.Valid (model : Model) : Prop where
  contexts : (model.boundedContexts.map (·.name)).Nodup
  aggregates : ∀ context ∈ model.boundedContexts, (context.aggregateList.map (·.name)).Nodup
  objects : model.objectNames.Nodup
  roots : ∀ aggregate ∈ model.aggregateList, aggregate.roots.length ≤ 1
  contained : ∀ map ∈ model.contextMap, ∀ name ∈ map.contains, name ∈ model.boundedContexts.map (·.name)
  participants : ∀ map ∈ model.contextMap, ∀ relationship ∈ map.relationships,
    relationship.participants.1 ∈ model.boundedContexts.map (·.name) ∧
      relationship.participants.2 ∈ model.boundedContexts.map (·.name)
  directed : ∀ map ∈ model.contextMap, ∀ relationship, .directed relationship ∈ map.relationships →
    relationship.upstream ≠ relationship.downstream
  types : ∀ aggregate ∈ model.aggregateList, ∀ type ∈ aggregate.types, ∃ accepted, acceptType type = .ok accepted
  names : ∀ aggregate ∈ model.aggregateList, ∀ name ∈ aggregate.guardedNames, ∀ reserved ∈ reservedObjectNames,
    Text.sameIgnoringCase reserved (Text.trim name) = false

theorem isValid_iff_lacks (report : Report) :
    report.isValid = true ↔ ∀ code : RuleCode, code.severity = .error → Lacks code report.findings := by
  rw [Report.isValid, Report.errors, List.isEmpty_iff, List.filter_eq_nil_iff]
  constructor
  · rintro h code hError finding hFinding rfl
    exact h finding hFinding (beq_iff_eq.mpr hError)
  · intro h finding hFinding hError
    exact h finding.code (beq_iff_eq.mp hError) finding hFinding rfl

theorem keeps_directedSelf_iff {model : Model} :
    model.Keeps .directedSelf ↔
      ∀ map ∈ model.contextMap, ∀ relationship, .directed relationship ∈ map.relationships →
        relationship.upstream ≠ relationship.downstream := by
  constructor
  · intro h map hMap relationship hMem
    exact (h map hMap _ hMem).1 rfl
  · intro h map hMap relationship hMem
    cases relationship with
    | symmetric kind first second => exact fun hCode => by cases hCode
    | directed relationship => exact ⟨fun _ => h map hMap relationship hMem, fun hCode => by cases hCode⟩

theorem reservedSpelling?_eq_none_iff {name : String} :
    reservedSpelling? name = none ↔
      ∀ reserved ∈ reservedObjectNames, Text.sameIgnoringCase reserved (Text.trim name) = false := by
  rw [reservedSpelling?, reservedObjectName?, List.find?_eq_none]
  simp only [Bool.not_eq_true]

theorem isValid_validate_iff_valid (model : Model) : model.validate.isValid = true ↔ model.Valid := by
  rw [isValid_iff_lacks]
  simp only [lacks_validate_iff_keeps]
  constructor
  · intro h
    have hContexts := h .repeatedContext rfl
    have hAggregates := h .repeatedAggregate rfl
    have hObjects := (Model.Located.mk hContexts hAggregates).nodup_objectNames_iff.mpr
      ⟨h .repeatedEntity rfl, h .repeatedValueObject rfl, h .sharedName rfl⟩
    exact
      { contexts := hContexts
        aggregates := hAggregates
        objects := hObjects
        roots := h .manyRoots rfl
        contained := fun map hMap => (h .unknownContext rfl map hMap).1
        participants := fun map hMap => (h .unknownContext rfl map hMap).2
        directed := keeps_directedSelf_iff.mp (h .directedSelf rfl)
        types := h .invalidType rfl
        names := fun aggregate hMem name hName =>
          reservedSpelling?_eq_none_iff.mp (h .reservedName rfl aggregate hMem name hName) }
  · intro h code hError
    obtain ⟨hEntities, hValueObjects, hShared⟩ :=
      (Model.Located.mk h.contexts h.aggregates).nodup_objectNames_iff.mp h.objects
    cases code with
    | repeatedContext => exact h.contexts
    | repeatedAggregate => exact h.aggregates
    | repeatedEntity => exact hEntities
    | repeatedValueObject => exact hValueObjects
    | manyRoots => exact h.roots
    | sharedName => exact hShared
    | unknownContext => exact fun map hMap => ⟨h.contained map hMap, h.participants map hMap⟩
    | directedSelf => exact keeps_directedSelf_iff.mpr h.directed
    | invalidType => exact h.types
    | reservedName =>
      exact fun aggregate hMem name hName => reservedSpelling?_eq_none_iff.mpr (h.names aggregate hMem name hName)
    | noRoot | symmetricSelf | unknownExposed => cases hError

end DomainAtlas
