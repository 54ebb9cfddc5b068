import DomainAtlas.Proofs.Editing.Places
import DomainAtlas.Proofs.Validation.SharedNames
import Mathlib.Data.List.Nodup

/-! # Models that editing keeps clean

A clean model has no repeated and no reserved name, and no reference to something that is not there. These
are the rules that edits check for themselves.
-/
set_option autoImplicit false

namespace DomainAtlas

open Validation

/-- The codes of repeated names, reserved names and dangling references. -/
def editingCodes : List RuleCode :=
  [.repeatedContext, .repeatedAggregate, .repeatedEntity, .repeatedValueObject, .sharedName, .unknownContext,
    .unknownExposed, .reservedName]

namespace Model

/-- A context of the one name has an aggregate of the other. -/
def Declares (model : Model) (context aggregate : String) : Prop :=
  ∃ found ∈ model.boundedContexts, found.name = context ∧ aggregate ∈ found.aggregateList.map (·.name)

/-- The relationship refers only to what is there; one of a context with itself is not looked into. -/
structure Supports (model : Model) (relationship : Relationship) : Prop where
  first : relationship.participants.1 ∈ model.contextNames
  second : relationship.participants.2 ∈ model.contextNames
  exposed : ∀ directed, relationship = .directed directed → directed.upstream ≠ directed.downstream →
    ∀ name ∈ directed.exposedAggregates, model.Declares directed.upstream name

structure Clean (model : Model) : Prop where
  contexts : model.contextNames.Nodup
  aggregates : ∀ context ∈ model.boundedContexts, (context.aggregateList.map (·.name)).Nodup
  objects : model.objectNames.Nodup
  contained : ∀ map ∈ model.contextMap, ∀ name ∈ map.contains, name ∈ model.contextNames
  relationships : ∀ map ∈ model.contextMap, ∀ relationship ∈ map.relationships, model.Supports relationship
  names : ∀ aggregate ∈ model.aggregateList, ∀ name ∈ aggregate.guardedNames, reservedSpelling? name = none

end Model

theorem exposesKnown_iff {model : Model} {relationship : DirectedRelationship}
    (hContexts : model.contextNames.Nodup) (hUpstream : relationship.upstream ∈ model.contextNames) :
    relationship.ExposesKnown model ↔
      ∀ name ∈ relationship.exposedAggregates, model.Declares relationship.upstream name := by
  constructor
  · intro h name hName
    obtain ⟨placed, hPlaced⟩ := Option.isSome_iff_exists.mp (hasContext_iff.mpr hUpstream)
    obtain ⟨hContext, -⟩ := findContext?_eq_some hPlaced
    exact ⟨placed.context, mem_of_findContext? hPlaced, hContext, hasAggregate_iff.mp (h placed hPlaced name hName)⟩
  · intro h placed hPlaced name hName
    obtain ⟨hContext, -⟩ := findContext?_eq_some (Option.mem_def.mp hPlaced)
    obtain ⟨found, hFound, hFoundName, hDeclared⟩ := h name hName
    have hMem := mem_of_findContext? (Option.mem_def.mp hPlaced)
    obtain rfl := List.inj_on_of_nodup_map hContexts hFound hMem (hFoundName.trans hContext.symm)
    exact hasAggregate_iff.mpr hDeclared

theorem related_unknownExposed_iff {model : Model} {relationship : Relationship} :
    Related .unknownExposed model relationship ↔
      ∀ directed, relationship = .directed directed → directed.upstream ≠ directed.downstream →
        directed.ExposesKnown model := by
  cases relationship with
  | symmetric kind first second => simp [Related]
  | directed directed => simp [Related]

theorem supports_iff {model : Model} (hContexts : model.contextNames.Nodup) {relationship : Relationship} :
    model.Supports relationship ↔
      (relationship.participants.1 ∈ model.contextNames ∧ relationship.participants.2 ∈ model.contextNames) ∧
        Related .unknownExposed model relationship := by
  rw [related_unknownExposed_iff]
  constructor
  · intro h
    refine ⟨⟨h.first, h.second⟩, ?_⟩
    rintro directed rfl hSelf
    exact (exposesKnown_iff hContexts h.first).mpr (h.exposed directed rfl hSelf)
  · rintro ⟨⟨hFirst, hSecond⟩, hExposed⟩
    refine ⟨hFirst, hSecond, ?_⟩
    rintro directed rfl hSelf
    exact (exposesKnown_iff hContexts hFirst).mp (hExposed directed rfl hSelf)

theorem clean_iff_lacks (model : Model) :
    model.Clean ↔ ∀ code ∈ editingCodes, Lacks code model.validate.findings := by
  simp only [lacks_validate_iff_keeps, editingCodes, List.forall_mem_cons, List.not_mem_nil, false_imp_iff,
    implies_true, and_true]
  constructor
  · intro h
    obtain ⟨hEntities, hValueObjects, hShared⟩ :=
      (Model.Located.mk h.contexts h.aggregates).nodup_objectNames_iff.mp h.objects
    refine ⟨h.contexts, h.aggregates, hEntities, hValueObjects, hShared, fun map hMap => ⟨h.contained map hMap, ?_⟩,
      ?_, h.names⟩
    · intro relationship hMem
      exact ((supports_iff h.contexts).mp (h.relationships map hMap relationship hMem)).1
    · intro map hMap relationship hMem
      exact ((supports_iff h.contexts).mp (h.relationships map hMap relationship hMem)).2
  · rintro ⟨hContexts, hAggregates, hEntities, hValueObjects, hShared, hKnown, hExposed, hNames⟩
    have hObjects := (Model.Located.mk hContexts hAggregates).nodup_objectNames_iff.mpr
      ⟨hEntities, hValueObjects, hShared⟩
    refine ⟨hContexts, hAggregates, hObjects, fun map hMap => (hKnown map hMap).1, ?_, hNames⟩
    intro map hMap relationship hMem
    exact (supports_iff hContexts).mpr ⟨(hKnown map hMap).2 relationship hMem, hExposed map hMap relationship hMem⟩

theorem Model.clean_iff {model : Model} :
    model.Clean ↔ ∀ finding ∈ model.validate.findings, finding.code ∉ editingCodes := by
  rw [clean_iff_lacks]
  constructor
  · intro h finding hMem hCode
    exact h finding.code hCode finding hMem rfl
  · rintro h _ hCode finding hMem rfl
    exact h finding hMem hCode

end DomainAtlas
