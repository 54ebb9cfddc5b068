import DomainAtlas.Proofs.Validation.Codes

/-! # What a report says

`Model.Keeps code` says what a model has to be like for its report to have no finding of that code. It
speaks of the elements of the model and not of how they are traversed; only where one rule leaves
some uses of a name to another does it speak of the uses as they are collected.
-/
set_option autoImplicit false

namespace DomainAtlas

open Validation

namespace Model

def contextNames (model : Model) : List String :=
  model.boundedContexts.map (·.name)

def Keeps (model : Model) : RuleCode → Prop
  | .repeatedContext => model.contextNames.Nodup
  | .repeatedAggregate => ∀ context ∈ model.boundedContexts, (context.aggregateList.map (·.name)).Nodup
  | .repeatedEntity => ∀ aggregate ∈ model.aggregateList, (aggregate.entities.map (·.name)).Nodup
  | .repeatedValueObject => ∀ aggregate ∈ model.aggregateList, (aggregate.valueObjects.map (·.name)).Nodup
  | .manyRoots => ∀ aggregate ∈ model.aggregateList, aggregate.roots.length ≤ 1
  | .noRoot => ∀ aggregate ∈ model.aggregateList, aggregate.roots = [] → aggregate.entities = []
  | .sharedName => ∀ name, Unshared (valuesOf model.occurrences name)
  | .unknownContext => ∀ map ∈ model.contextMap, (∀ name ∈ map.contains, name ∈ model.contextNames) ∧
      ∀ relationship ∈ map.relationships,
        relationship.participants.1 ∈ model.contextNames ∧ relationship.participants.2 ∈ model.contextNames
  | .symmetricSelf => ∀ map ∈ model.contextMap, ∀ relationship ∈ map.relationships,
      Related .symmetricSelf model relationship
  | .directedSelf => ∀ map ∈ model.contextMap, ∀ relationship ∈ map.relationships,
      Related .directedSelf model relationship
  | .unknownExposed => ∀ map ∈ model.contextMap, ∀ relationship ∈ map.relationships,
      Related .unknownExposed model relationship
  | .invalidType => ∀ aggregate ∈ model.aggregateList, ∀ type ∈ aggregate.types, ∃ accepted, acceptType type = .ok accepted
  | .reservedName => ∀ aggregate ∈ model.aggregateList, ∀ name ∈ aggregate.guardedNames, reservedSpelling? name = none

end Model

variable {code : RuleCode} {model : Model}

theorem throughout_structured_iff :
    model.Throughout (Structured code) ↔
      (∀ context ∈ model.boundedContexts, Structured code (.boundedContext context)) ∧
      ∀ aggregate ∈ model.aggregateList, Structured code (.aggregate aggregate) := by
  constructor
  · intro h
    exact ⟨h.contexts, fun aggregate hMem => (h.aggregates aggregate hMem).self⟩
  · rintro ⟨hContexts, hAggregates⟩
    refine ⟨fun _ _ => trivial, hContexts, fun _ _ _ _ => trivial, fun aggregate hMem => ?_⟩
    exact ⟨hAggregates aggregate hMem, fun _ _ => trivial, fun _ _ => trivial, fun _ _ => trivial,
      fun _ _ => trivial, fun _ _ => trivial, fun _ _ => trivial, fun _ _ => trivial⟩

theorem typed_attribute_iff {member : Attribute} :
    Typed code (.attribute member) ↔ (code = .invalidType → ∃ accepted, acceptType member.type = .ok accepted) := by
  simp [Typed, mentionedTypes]

theorem typed_operation_iff {member : Operation} :
    Typed code (.operation member) ↔
      (code = .invalidType → ∀ type ∈ member.returnType.toList ++ member.parameters.map (·.type),
        ∃ accepted, acceptType type = .ok accepted) := by
  simp only [Typed, mentionedTypes, List.forall_mem_append, List.forall_mem_map]

theorem throughout_typed_iff :
    model.Throughout (Typed code) ↔
      (code = .invalidType → ∀ aggregate ∈ model.aggregateList, ∀ type ∈ aggregate.types,
        ∃ accepted, acceptType type = .ok accepted) := by
  have hNothing : ∀ {element}, mentionedTypes element = [] → Typed code element := by
    intro element hNone _ mention hMention
    rw [hNone] at hMention
    cases hMention
  constructor
  · rintro h rfl aggregate hAggregate
    obtain ⟨-, -, -, -, -, -, hAttributes, hOperations⟩ := h.aggregates aggregate hAggregate
    rw [Aggregate.types, List.forall_mem_append, List.forall_mem_map, List.forall_mem_flatMap]
    exact ⟨fun member hMember => typed_attribute_iff.mp (hAttributes member hMember) rfl,
      fun member hMember => typed_operation_iff.mp (hOperations member hMember) rfl⟩
  · intro h
    refine ⟨fun _ _ => hNothing rfl, fun _ _ => hNothing rfl, fun _ _ _ _ => hNothing rfl, fun aggregate hMem => ?_⟩
    refine ⟨hNothing rfl, fun _ _ => hNothing rfl, fun _ _ => hNothing rfl, fun _ _ => hNothing rfl,
      fun _ _ => hNothing rfl, fun _ _ => hNothing rfl, fun member hMember => ?_, fun member hMember => ?_⟩
    · refine typed_attribute_iff.mpr fun hCode => h hCode aggregate hMem _ ?_
      exact List.mem_append_left _ (List.mem_map_of_mem hMember)
    · refine typed_operation_iff.mpr fun hCode type hType => h hCode aggregate hMem _ ?_
      exact List.mem_append_right _ (List.mem_flatMap.mpr ⟨member, hMember, hType⟩)

theorem forall_guardedNames_iff {aggregate : Aggregate} {Good : String → Prop} :
    (∀ name ∈ aggregate.guardedNames, Good name) ↔
      Good aggregate.name ∧ ((((∀ entity ∈ aggregate.entities, Good entity.name) ∧
        ∀ object ∈ aggregate.valueObjects, Good object.name) ∧
        ∀ object ∈ aggregate.domainEvents, Good object.name) ∧
        ∀ object ∈ aggregate.commands, Good object.name) ∧
        ∀ service ∈ aggregate.services, Good service.name := by
  simp only [Aggregate.guardedNames, Aggregate.objectNames, List.forall_mem_cons, List.forall_mem_append,
    List.forall_mem_map]

theorem named_iff {element : Element} {kind : Keyword} {name : String}
    (h : guardedName? element = some (kind, name)) :
    Named code element ↔ (code = .reservedName → reservedSpelling? name = none) := by
  simp [Named, h]

theorem throughout_named_iff :
    model.Throughout (Named code) ↔
      (code = .reservedName → ∀ aggregate ∈ model.aggregateList, ∀ name ∈ aggregate.guardedNames,
        reservedSpelling? name = none) := by
  have hNothing : ∀ {element}, guardedName? element = none → Named code element := by
    intro element hNone _ guarded hGuarded
    rw [hNone] at hGuarded
    cases hGuarded
  constructor
  · rintro h rfl aggregate hAggregate
    obtain ⟨hSelf, hEntities, hValueObjects, hDomainEvents, hCommands, hServices, -, -⟩ :=
      h.aggregates aggregate hAggregate
    exact forall_guardedNames_iff.mpr ⟨(named_iff rfl).mp hSelf rfl,
      ⟨⟨⟨fun entity hMem => (named_iff rfl).mp (hEntities entity hMem) rfl,
        fun object hMem => (named_iff rfl).mp (hValueObjects object hMem) rfl⟩,
        fun object hMem => (named_iff rfl).mp (hDomainEvents object hMem) rfl⟩,
        fun object hMem => (named_iff rfl).mp (hCommands object hMem) rfl⟩,
      fun service hMem => (named_iff rfl).mp (hServices service hMem) rfl⟩
  · intro h
    refine ⟨fun _ _ => hNothing rfl, fun _ _ => hNothing rfl, fun _ _ _ _ => hNothing rfl, fun aggregate hMem => ?_⟩
    have hNames := fun hCode => forall_guardedNames_iff.mp (h hCode aggregate hMem)
    exact ⟨(named_iff rfl).mpr fun hCode => (hNames hCode).1,
      fun entity hEntity => (named_iff rfl).mpr fun hCode => (hNames hCode).2.1.1.1.1 entity hEntity,
      fun object hObject => (named_iff rfl).mpr fun hCode => (hNames hCode).2.1.1.1.2 object hObject,
      fun object hObject => (named_iff rfl).mpr fun hCode => (hNames hCode).2.1.1.2 object hObject,
      fun object hObject => (named_iff rfl).mpr fun hCode => (hNames hCode).2.1.2 object hObject,
      fun service hService => (named_iff rfl).mpr fun hCode => (hNames hCode).2.2 service hService,
      fun _ _ => hNothing rfl, fun _ _ => hNothing rfl⟩

theorem related_of_other {relationship : Relationship} (hSymmetric : code ≠ .symmetricSelf)
    (hDirected : code ≠ .directedSelf) (hExposed : code ≠ .unknownExposed) : Related code model relationship := by
  cases relationship with
  | symmetric kind first second => exact fun hCode => absurd hCode hSymmetric
  | directed relationship => exact ⟨fun hCode => absurd hCode hDirected, fun hCode => absurd hCode hExposed⟩

theorem lacks_validate_iff_keeps : Lacks code model.validate.findings ↔ model.Keeps code := by
  have hParts : Lacks code model.validate.findings ↔
      (((((code = .repeatedContext → model.contextNames.Nodup) ∧ model.Throughout (Structured code)) ∧
        (code = .sharedName → ∀ name, Unshared (valuesOf model.occurrences name))) ∧
        ∀ map ∈ model.contextMap.toList, Lacks code (mapFindings model map)) ∧
        model.Throughout (Typed code)) ∧ model.Throughout (Named code) := by
    simp only [Model.validate, lacks_append, lacks_flatMap, lacks_repeatedContexts, lacks_structureFindings,
      lacks_sharedNames, lacks_typeFindings, lacks_nameFindings, Model.forall_elements_iff]
    rfl
  rw [hParts, throughout_structured_iff, throughout_typed_iff, throughout_named_iff]
  simp only [lacks_mapFindings, Option.mem_toList]
  cases code <;> simp [Model.Keeps, Structured, related_of_other, Model.contextNames]

end DomainAtlas
