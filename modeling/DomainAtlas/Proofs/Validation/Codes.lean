import DomainAtlas.Proofs.Validation.Elements
import DomainAtlas.Proofs.Validation.Groups

/-! # What each rule reports

For each rule, what its part of the model has to be like for it to report nothing with a given code. Only for
shared names, where one rule leaves some uses to others, does this speak of the uses as they are collected.
-/
set_option autoImplicit false

namespace DomainAtlas

open Validation

/-- No finding is of the code. -/
def Lacks (code : RuleCode) (findings : List Finding) : Prop :=
  ∀ finding ∈ findings, finding.code ≠ code

theorem lacks_append {code : RuleCode} {findings more : List Finding} :
    Lacks code (findings ++ more) ↔ Lacks code findings ∧ Lacks code more :=
  List.forall_mem_append

theorem lacks_flatMap {α : Type} {code : RuleCode} {f : α → List Finding} {values : List α} :
    Lacks code (values.flatMap f) ↔ ∀ value ∈ values, Lacks code (f value) :=
  List.forall_mem_flatMap

/-- Findings at one place are judged by their violations. -/
theorem lacks_located {code : RuleCode} {violations : List Violation} {location : Location} :
    Lacks code (violations.map fun violation => ⟨violation, location⟩) ↔
      ∀ violation ∈ violations, violation.code ≠ code :=
  List.forall_mem_map

/-- Repetitions, each of which gives a violation of the code `own`. -/
theorem forall_repeated_iff {code own : RuleCode} {names : List String} {violation : String × Nat → Violation}
    (hOwn : ∀ entry, (violation entry).code = own) :
    (∀ found ∈ (repeated names).map violation, found.code ≠ code) ↔ (code = own → names.Nodup) := by
  rw [List.forall_mem_map, ← repeated_eq_nil_iff]
  constructor
  · rintro h rfl
    exact List.eq_nil_iff_forall_not_mem.mpr fun entry hEntry => h entry hEntry (hOwn entry)
  · intro h entry hEntry hCode
    rw [hOwn] at hCode
    rw [h hCode.symm] at hEntry
    cases hEntry

/-! ## Structure -/

theorem lacks_repeatedContexts {code : RuleCode} {model : Model} :
    Lacks code (repeatedContexts model) ↔
      (code = .repeatedContext → (model.boundedContexts.map (·.name)).Nodup) := by
  have h := @forall_repeated_iff code .repeatedContext (model.boundedContexts.map (·.name))
    (fun entry => .repeatedContext entry.1 entry.2) fun _ => rfl
  rw [List.forall_mem_map] at h
  rw [Lacks, repeatedContexts, List.forall_mem_map]
  exact h

theorem forall_repeatedAggregates_iff {code : RuleCode} {context : BoundedContext} :
    (∀ violation ∈ repeatedAggregates context, violation.code ≠ code) ↔
      (code = .repeatedAggregate → (context.aggregateList.map (·.name)).Nodup) := by
  rw [← context.allAggregates_eq]
  exact forall_repeated_iff fun _ => rfl

theorem forall_repeatedMembers_iff {code : RuleCode} {aggregate : Aggregate} :
    (∀ violation ∈ repeatedMembers aggregate, violation.code ≠ code) ↔
      (code = .repeatedEntity → (aggregate.entities.map (·.name)).Nodup) ∧
      (code = .repeatedValueObject → (aggregate.valueObjects.map (·.name)).Nodup) := by
  rw [repeatedMembers, List.forall_mem_append]
  exact and_congr (forall_repeated_iff fun _ => rfl) (forall_repeated_iff fun _ => rfl)

def Aggregate.roots (aggregate : Aggregate) : List Entity :=
  aggregate.entities.filter (·.isRoot)

theorem forall_rootViolations_iff {code : RuleCode} {aggregate : Aggregate} :
    (∀ violation ∈ rootViolations aggregate, violation.code ≠ code) ↔
      (code = .manyRoots → aggregate.roots.length ≤ 1) ∧
      (code = .noRoot → aggregate.roots = [] → aggregate.entities = []) := by
  unfold rootViolations Aggregate.roots
  cases aggregate.entities.filter (·.isRoot) with
  | nil =>
    cases aggregate.entities with
    | nil => simp
    | cons entity entities => simp [Violation.code, eq_comm]
  | cons root others =>
    cases others with
    | nil => simp
    | cons second others => simp [Violation.code, eq_comm]

/-- What an element has to be like for no finding of the code on its structure. -/
def Structured (code : RuleCode) : Element → Prop
  | .boundedContext context => code = .repeatedAggregate → (context.aggregateList.map (·.name)).Nodup
  | .aggregate aggregate =>
    ((code = .repeatedEntity → (aggregate.entities.map (·.name)).Nodup) ∧
      (code = .repeatedValueObject → (aggregate.valueObjects.map (·.name)).Nodup)) ∧
    (code = .manyRoots → aggregate.roots.length ≤ 1) ∧
    (code = .noRoot → aggregate.roots = [] → aggregate.entities = [])
  | _ => True

theorem lacks_structureFindings {code : RuleCode} {located : LocatedElement} :
    Lacks code (structureFindings located) ↔ Structured code located.element := by
  obtain ⟨element, location⟩ := located
  cases element with
  | boundedContext context =>
    rw [structureFindings, lacks_located, forall_repeatedAggregates_iff]
    rfl
  | aggregate aggregate =>
    rw [structureFindings, lacks_located, List.forall_mem_append, forall_repeatedMembers_iff,
      forall_rootViolations_iff]
    rfl
  | _ => simp [structureFindings, Structured, Lacks]

/-! ## Shared names -/

/-- One use of a name at most, or uses that are all entities or all value objects of one aggregate. -/
def Unshared (uses : List Occurrence) : Prop :=
  uses.length ≤ 1 ∨ ∃ kind aggregate, (kind = .entity ∨ kind = .valueObject) ∧
    ∀ use ∈ uses, use.kind = kind ∧ use.aggregate = aggregate

theorem sharedName_eq_none_iff {name : String} {uses : List Occurrence} :
    sharedName name uses = none ↔ Unshared uses := by
  match uses with
  | [] => simp [sharedName, Unshared]
  | [use] => simp [sharedName, Unshared]
  | first :: second :: others =>
    have hLong : ¬ (first :: second :: others).length ≤ 1 := by simp
    have hReported : reportedInAggregate first (second :: others) = true ↔
        ∃ kind aggregate, (kind = .entity ∨ kind = .valueObject) ∧
          ∀ use ∈ first :: second :: others, use.kind = kind ∧ use.aggregate = aggregate := by
      rw [reportedInAggregate, Bool.and_eq_true, Bool.or_eq_true, List.all_eq_true]
      simp only [Bool.and_eq_true, beq_iff_eq]
      constructor
      · rintro ⟨hKind, hOthers⟩
        exact ⟨first.kind, first.aggregate, hKind, List.forall_mem_cons.mpr ⟨⟨rfl, rfl⟩, hOthers⟩⟩
      · rintro ⟨kind, aggregate, hKind, hUses⟩
        obtain ⟨⟨rfl, rfl⟩, hOthers⟩ := List.forall_mem_cons.mp hUses
        exact ⟨hKind, hOthers⟩
    rw [sharedName, Unshared, or_iff_right hLong, ← hReported]
    · split <;> simp_all
    · simp

theorem lacks_sharedNames {code : RuleCode} {model : Model} :
    Lacks code (sharedNames model) ↔
      (code = .sharedName → ∀ name, Unshared (valuesOf model.occurrences name)) := by
  have hCode : ∀ {name uses finding}, sharedName name uses = some finding → finding.code = .sharedName := by
    intro name uses finding h
    unfold sharedName at h
    split at h
    · cases h
    · cases h
    · split at h <;> cases h
      rfl
  constructor
  · rintro h rfl name
    suffices hNone : sharedName name (valuesOf model.occurrences name) = none from sharedName_eq_none_iff.mp hNone
    by_cases hName : name ∈ model.occurrences.map (·.1)
    · cases hFinding : sharedName name (valuesOf model.occurrences name) with
      | none => rfl
      | some finding =>
        have hMem : finding ∈ sharedNames model :=
          List.mem_filterMap.mpr ⟨(name, _), mem_group.mpr ⟨hName, rfl⟩, hFinding⟩
        exact absurd (hCode hFinding) (h finding hMem)
    · rw [valuesOf_eq_nil hName, sharedName]
  · intro h finding hFinding hOwn
    obtain ⟨⟨name, uses⟩, hGroup, hShared⟩ := List.mem_filterMap.mp hFinding
    obtain ⟨-, rfl⟩ := mem_group.mp hGroup
    have hNone : sharedName name _ = none := sharedName_eq_none_iff.mpr (h (hOwn ▸ hCode hShared) name)
    rw [hNone] at hShared
    cases hShared

/-! ## The map -/

theorem hasContext_iff {model : Model} {name : String} :
    model.hasContext name = true ↔ name ∈ model.boundedContexts.map (·.name) := by
  have hNames : model.placedContexts.map (·.context.name) = model.boundedContexts.map (·.name) := by
    rw [Model.placedContexts, List.map_map, ← List.zipIdx_map_fst 0 model.boundedContexts, List.map_map]
    simp [Function.comp_def]
  rw [Model.hasContext, Model.findContext?, List.find?_isSome, ← hNames, List.mem_map]
  simp only [beq_iff_eq]

theorem unknownContext?_eq_some {model : Model} {site : ReferenceSite} {location : Location} {name : String}
    {finding : Finding} :
    unknownContext? model site location name = some finding ↔
      name ∉ model.boundedContexts.map (·.name) ∧ ⟨.unknownContext name site, location⟩ = finding := by
  rw [← hasContext_iff, unknownContext?]
  cases model.hasContext name with
  | true => simp
  | false => simp

theorem lacks_unknownContexts {code : RuleCode} {model : Model} {site : ReferenceSite} {location : Location}
    {names : List String} :
    Lacks code (names.filterMap (unknownContext? model site location)) ↔
      (code = .unknownContext → ∀ name ∈ names, name ∈ model.boundedContexts.map (·.name)) := by
  constructor
  · rintro h rfl name hName
    cases Decidable.em (name ∈ model.boundedContexts.map (·.name)) with
    | inl hKnown => exact hKnown
    | inr hUnknown =>
      have hFinding := (@unknownContext?_eq_some model site location name _).mpr ⟨hUnknown, rfl⟩
      exact absurd rfl (h _ (List.mem_filterMap.mpr ⟨name, hName, hFinding⟩))
  · intro h finding hFinding hOwn
    obtain ⟨name, hName, hSome⟩ := List.mem_filterMap.mp hFinding
    obtain ⟨hUnknown, rfl⟩ := unknownContext?_eq_some.mp hSome
    exact hUnknown (h hOwn.symm name hName)

theorem forall_distinctParticipants {relationship : Relationship} {Good : String → Prop} :
    (∀ name ∈ distinctParticipants relationship, Good name) ↔
      Good relationship.participants.1 ∧ Good relationship.participants.2 := by
  unfold distinctParticipants Relationship.isSelf
  split
  · rename_i hSelf
    simp [← beq_iff_eq.mp hSelf]
  · simp

/-- Every exposed aggregate that can be looked up is there. -/
def DirectedRelationship.ExposesKnown (model : Model) (relationship : DirectedRelationship) : Prop :=
  ∀ upstream ∈ model.findContext? relationship.upstream, ∀ name ∈ relationship.exposedAggregates,
    upstream.context.hasAggregate name = true

theorem forall_unknownExposed_iff {code : RuleCode} {model : Model} {relationship : DirectedRelationship} :
    (∀ violation ∈ unknownExposed model relationship, violation.code ≠ code) ↔
      (code = .unknownExposed → relationship.ExposesKnown model) := by
  unfold unknownExposed DirectedRelationship.ExposesKnown
  cases model.findContext? relationship.upstream with
  | none => simp
  | some upstream =>
    simp only [List.forall_mem_map, List.mem_filter, Violation.code, Option.mem_some_iff, forall_eq']
    constructor
    · rintro h rfl name hName
      cases hKnown : upstream.context.hasAggregate name with
      | true => rfl
      | false => exact absurd rfl (h name ⟨hName, by simp [hKnown]⟩)
    · rintro h name ⟨hName, hUnknown⟩ hCode
      rw [h hCode.symm name hName] at hUnknown
      cases hUnknown

/-- What a relationship has to be like for no violation of the code. -/
def Related (code : RuleCode) (model : Model) : Relationship → Prop
  | .symmetric _ first second => code = .symmetricSelf → first ≠ second
  | .directed relationship =>
    (code = .directedSelf → relationship.upstream ≠ relationship.downstream) ∧
    (code = .unknownExposed → relationship.upstream ≠ relationship.downstream →
      relationship.ExposesKnown model)

theorem forall_relationshipViolations_iff {code : RuleCode} {model : Model} {relationship : Relationship} :
    (∀ violation ∈ relationshipViolations model relationship, violation.code ≠ code) ↔
      Related code model relationship := by
  cases relationship with
  | symmetric kind first second =>
    by_cases hSelf : first = second
    · simp [relationshipViolations, Relationship.isSelf, Relationship.participants, Related, hSelf, Violation.code,
        eq_comm]
    · simp [relationshipViolations, Relationship.isSelf, Relationship.participants, Related, hSelf]
  | directed relationship =>
    by_cases hSelf : relationship.upstream = relationship.downstream
    · simp [relationshipViolations, Relationship.isSelf, Relationship.participants, Related, hSelf, Violation.code,
        eq_comm]
    · have hNot : (Relationship.directed relationship).isSelf = false := by
        simpa [Relationship.isSelf, Relationship.participants] using hSelf
      rw [relationshipViolations, hNot, if_neg Bool.false_ne_true, forall_unknownExposed_iff, Related]
      simp [hSelf]

theorem lacks_mapFindings {code : RuleCode} {model : Model} {map : ContextMap} :
    Lacks code (mapFindings model map) ↔
      (code = .unknownContext → ∀ name ∈ map.contains, name ∈ model.boundedContexts.map (·.name)) ∧
      ∀ relationship ∈ map.relationships,
        (code = .unknownContext → relationship.participants.1 ∈ model.boundedContexts.map (·.name) ∧
          relationship.participants.2 ∈ model.boundedContexts.map (·.name)) ∧
        Related code model relationship := by
  rw [mapFindings, lacks_append, lacks_unknownContexts, lacks_flatMap]
  simp only [relationshipFindings, lacks_append, lacks_unknownContexts, lacks_located,
    forall_distinctParticipants, forall_relationshipViolations_iff]

/-! ## Types and names -/

/-- What an element has to be like for no finding of the code on the types that it mentions. -/
def Typed (code : RuleCode) (element : Element) : Prop :=
  code = .invalidType → ∀ mention ∈ mentionedTypes element, ∃ type, acceptType mention.2 = .ok type

theorem lacks_typeFindings {code : RuleCode} {located : LocatedElement} :
    Lacks code (typeFindings located) ↔ Typed code located.element := by
  constructor
  · rintro h rfl mention hMention
    cases hType : acceptType mention.2 with
    | ok type => exact ⟨type, rfl⟩
    | error reason =>
      have hFinding : ⟨.invalidType mention.1 reason, located.location⟩ ∈ typeFindings located :=
        List.mem_filterMap.mpr ⟨mention, hMention, by rw [hType]⟩
      exact absurd rfl (h _ hFinding)
  · intro h finding hFinding hOwn
    obtain ⟨mention, hMention, hSome⟩ := List.mem_filterMap.mp hFinding
    split at hSome
    · cases hSome
    · rename_i reason hReason
      cases hSome
      obtain ⟨type, hType⟩ := h hOwn.symm mention hMention
      rw [hReason] at hType
      cases hType

/-- What an element has to be like for no finding of the code on its name. -/
def Named (code : RuleCode) (element : Element) : Prop :=
  code = .reservedName → ∀ guarded ∈ guardedName? element, reservedSpelling? guarded.2 = none

theorem lacks_nameFindings {code : RuleCode} {elements : List LocatedElement} :
    Lacks code (elements.filterMap nameFinding?) ↔ ∀ located ∈ elements, Named code located.element := by
  constructor
  · rintro h located hLocated rfl ⟨kind, name⟩ hGuarded
    cases hReserved : reservedSpelling? name with
    | none => rfl
    | some reserved =>
      have hFinding := List.mem_filterMap (f := nameFinding?).mpr
        ⟨located, hLocated, Option.bind_eq_some_iff.mpr
          ⟨_, hGuarded, Option.bind_eq_some_iff.mpr ⟨reserved, hReserved, rfl⟩⟩⟩
      exact absurd rfl (h _ hFinding)
  · intro h finding hFinding hOwn
    obtain ⟨located, hLocated, hSome⟩ := List.mem_filterMap.mp hFinding
    obtain ⟨⟨kind, name⟩, hGuarded, hSome⟩ := Option.bind_eq_some_iff.mp hSome
    obtain ⟨reserved, hReserved, hFinding⟩ := Option.bind_eq_some_iff.mp hSome
    cases hFinding
    rw [h located hLocated hOwn.symm (kind, name) hGuarded] at hReserved
    cases hReserved

end DomainAtlas
