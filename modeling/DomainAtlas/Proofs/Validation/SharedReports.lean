import DomainAtlas.Proofs.Validation.ByCode
import DomainAtlas.Proofs.Validation.Traversal
import Mathlib.Algebra.BigOperators.Group.List.Basic

/-! # The report on a shared name

A name that two entities, value objects, domain events or commands have is reported once: where it is repeated, if
one aggregate has all of them and they are all entities or all value objects, and as shared if not. Only where several
aggregates at one location have the name is it not reported at all, and a finding on the contexts or aggregates
of one name tells of those.
-/
set_option autoImplicit false

namespace DomainAtlas

open Validation

/-! ## Aggregates and their uses of a name -/

namespace SitedAggregate

def names (owner : SitedAggregate) : List String :=
  owner.placed.aggregate.objectNames

/-- The uses that the aggregate makes of a name, in document order. -/
def uses (owner : SitedAggregate) (name : String) : List Occurrence :=
  (owner.placed.aggregate.domainObjects.filter fun object => object.2 == name).map fun object =>
    ⟨object.1, owner.context, owner.location⟩

theorem uses_eq_nil {owner : SitedAggregate} {name : String} (h : name ∉ owner.names) : owner.uses name = [] := by
  rw [uses, List.map_eq_nil_iff, List.filter_eq_nil_iff]
  intro object hObject hName
  rw [names, ← Aggregate.map_domainObjects] at h
  exact h (beq_iff_eq.mp hName ▸ List.mem_map_of_mem hObject)

theorem exists_mem_uses {owner : SitedAggregate} {name : String} (h : name ∈ owner.names) :
    ∃ use ∈ owner.uses name, use.aggregate = owner.location := by
  rw [names, ← Aggregate.map_domainObjects] at h
  obtain ⟨object, hObject, rfl⟩ := List.mem_map.mp h
  exact ⟨_, List.mem_map_of_mem (List.mem_filter.mpr ⟨hObject, beq_self_eq_true _⟩), rfl⟩

theorem aggregate_eq_of_mem_uses {owner : SitedAggregate} {name : String} {use : Occurrence}
    (h : use ∈ owner.uses name) : use.aggregate = owner.location := by
  obtain ⟨object, -, rfl⟩ := List.mem_map.mp h
  rfl

theorem length_uses {owner : SitedAggregate} {name : String} {kind : ObjectKind}
    (h : ∀ use ∈ owner.uses name, use.kind = kind) :
    (owner.uses name).length = (owner.placed.aggregate.namesOf kind).count name := by
  rw [uses, List.length_map, Aggregate.namesOf, List.count, List.countP_map, List.countP_eq_length_filter,
    List.filter_filter]
  refine congrArg List.length (List.filter_congr fun object hObject => ?_)
  cases hName : object.2 == name with
  | false => simp [hName]
  | true =>
    have hKind : object.1 = kind := h _ (List.mem_map_of_mem (List.mem_filter.mpr ⟨hObject, hName⟩))
    simp [hName, hKind]

end SitedAggregate

namespace Model

def uses (model : Model) (name : String) : List Occurrence :=
  model.sitedAggregates.flatMap (·.uses name)

/-- The aggregates that have a name in them. -/
def ownersOf (model : Model) (name : String) : List SitedAggregate :=
  model.sitedAggregates.filter fun owner => name ∈ owner.names

variable {model : Model} {name : String}

theorem valuesOf_occurrences (model : Model) (name : String) : valuesOf model.occurrences name = model.uses name := by
  simp only [valuesOf, occurrences, BoundedContext.occurrences, uses, sitedAggregates, List.filter_flatMap,
    List.map_flatMap, List.flatMap_assoc, List.flatMap_map, PlacedAggregate.occurrences, List.filter_map, List.map_map,
    SitedAggregate.uses]
  rfl

/-- What only aggregates with a certain name give rise to comes from the owners of the name. -/
theorem flatMap_ownersOf {β : Type} {f : SitedAggregate → List β} (h : ∀ owner, name ∉ owner.names → f owner = []) :
    model.sitedAggregates.flatMap f = (model.ownersOf name).flatMap f := by
  rw [ownersOf]
  induction model.sitedAggregates with
  | nil => rfl
  | cons owner owners ih =>
    rw [List.flatMap_cons, ih]
    by_cases hName : name ∈ owner.names
    · rw [List.filter_cons_of_pos (by simpa using hName), List.flatMap_cons]
    · rw [List.filter_cons_of_neg (by simpa using hName), h owner hName, List.nil_append]

theorem uses_eq_flatMap_ownersOf : model.uses name = (model.ownersOf name).flatMap (·.uses name) :=
  flatMap_ownersOf fun _ => SitedAggregate.uses_eq_nil

theorem Located.nodup_locations (h : model.Located) : (model.sitedAggregates.map (·.location)).Nodup := by
  refine List.pairwise_map.mpr (List.pairwise_flatMap.mpr ⟨fun context hContext => ?_, ?_⟩)
  · have hNames := h.aggregates context hContext
    rw [← map_name_placedAggregates] at hNames
    rw [List.pairwise_map]
    refine (List.pairwise_map.mp hNames).imp ?_
    intro placed placed' hNe hEq
    exact hNe (ofAggregate_inj hEq).2
  · refine (List.pairwise_map.mp h.contexts).imp ?_
    intro context context' hNe owner hOwner owner' hOwner' hEq
    obtain ⟨placed, -, rfl⟩ := List.mem_map.mp hOwner
    obtain ⟨placed', -, rfl⟩ := List.mem_map.mp hOwner'
    exact hNe (ofAggregate_inj hEq).1

end Model

/-! ## Findings on one name -/

/-- The name that is reported as repeated or as shared. -/
def Violation.repeatedName? : Violation → Option String
  | repeatedContext name _ => some name
  | repeatedAggregate name _ _ => some name
  | repeatedEntity name _ => some name
  | repeatedValueObject name _ => some name
  | sharedName name _ => some name
  | _ => none

def Violation.isAbout (code : RuleCode) (name : String) (violation : Violation) : Bool :=
  violation.code == code && violation.repeatedName? == some name

/-- The findings of one code on one name. -/
def Report.about (report : Report) (code : RuleCode) (name : String) : List Finding :=
  report.findings.filter fun finding => finding.violation.isAbout code name

/-- What is wrong with an aggregate that has a name several times, if such repetitions have a code of their own. -/
def ObjectKind.repetition? (kind : ObjectKind) (name : String) (count : Nat) : Option Violation :=
  match kind with
  | entity => some (.repeatedEntity name count)
  | valueObject => some (.repeatedValueObject name count)
  | domainEvent => none
  | command => none

namespace Model

/-- All uses of a name are of one kind and in one aggregate. -/
structure KeptTo (model : Model) (name : String) (kind : ObjectKind) (owner : SitedAggregate) : Prop where
  owner : model.ownersOf name = [owner]
  kind : ∀ use ∈ model.uses name, use.kind = kind

/-- What the report says of one name. -/
structure Reports (model : Model) (name : String) : Prop where
  single : (model.uses name).length ≤ 1 → model.validate.about .sharedName name = []
  kept : ∀ kind owner violation, 2 ≤ (model.uses name).length → model.KeptTo name kind owner →
    kind.repetition? name (model.uses name).length = some violation →
    model.validate.about violation.code name = [⟨violation, owner.location⟩] ∧
      model.validate.about .sharedName name = []
  shared : 2 ≤ (model.uses name).length →
    (∀ kind owner, model.KeptTo name kind owner → kind.repetition? name (model.uses name).length = none) →
    ∀ first ∈ (model.uses name).head?,
      model.validate.about .sharedName name = [⟨.sharedName name (model.uses name), first.aggregate⟩]

/-- Several aggregates at one location use a name for entities alone, or for value objects alone. -/
structure Confuses (model : Model) (name : String) : Prop where
  owners : 2 ≤ (model.ownersOf name).length
  alike : ∃ kind location, (kind = .entity ∨ kind = .valueObject) ∧
    ∀ use ∈ model.uses name, use.kind = kind ∧ use.aggregate = location

end Model

theorem filter_eq_nil_of_lacks {code : RuleCode} {findings : List Finding} (name : String)
    (h : Lacks code findings) : findings.filter (fun finding => finding.violation.isAbout code name) = [] := by
  refine List.filter_eq_nil_iff.mpr fun finding hFinding hAbout => h finding hFinding ?_
  rw [Violation.isAbout, Bool.and_eq_true, beq_iff_eq] at hAbout
  exact hAbout.1

theorem filter_beq_eraseDups (names : List String) (name : String) :
    names.eraseDups.filter (fun other => other == name) = if name ∈ names then [name] else [] := by
  rw [List.filter_beq, (nodup_eraseDups names).count]
  simp only [List.mem_eraseDups]
  split <;> rfl

theorem filter_repeated (names : List String) (name : String) :
    (repeated names).filter (fun entry => entry.1 == name) =
      if 1 < names.count name then [(name, names.count name)] else [] := by
  rw [repeated_eq, List.filter_comm, List.filter_map]
  simp only [Function.comp_def]
  rw [filter_beq_eraseDups]
  by_cases hMem : name ∈ names
  · rw [if_pos hMem, List.map_singleton, List.filter_singleton]
    simp
  · rw [if_neg hMem, List.count_eq_zero.mpr hMem]
    rfl

variable {model : Model} {name : String}

/-- What is reported of a name under a code is reported by the rule of that code. -/
theorem about_validate (model : Model) (code : RuleCode) (name : String) :
    model.validate.about code name =
      (code.rule.findings model).filter fun finding => finding.violation.isAbout code name := by
  have hOwn (findings : List Finding) : (ofCode code findings).filter (fun finding => finding.violation.isAbout code name) =
      findings.filter fun finding => finding.violation.isAbout code name := by
    rw [ofCode, List.filter_filter]
    refine List.filter_congr fun finding _ => ?_
    rw [Violation.isAbout, Bool.and_right_comm]
    exact congrArg (· && _) (Bool.and_self _)
  rw [← hOwn, ← ofCode_validate]
  exact (hOwn model.validate.findings).symm

/-! ## Repetitions in an aggregate -/

theorem filter_isAbout_repeated {violation : String × Nat → Violation} {own : RuleCode} (code : RuleCode)
    (names : List String) (hOwn : ∀ entry, (violation entry).code = own)
    (hName : ∀ entry, (violation entry).repeatedName? = some entry.1) :
    ((repeated names).map violation).filter (Violation.isAbout code name) =
      if own = code ∧ 1 < names.count name then [violation (name, names.count name)] else [] := by
  rw [List.filter_map]
  by_cases hCode : own = code
  · have hAbout : (Violation.isAbout code name ∘ violation) = fun entry => entry.1 == name := by
      funext entry
      simp [Violation.isAbout, hOwn, hName, hCode]
    rw [hAbout, filter_repeated]
    by_cases hCount : 1 < names.count name
    · rw [if_pos hCount, if_pos ⟨hCode, hCount⟩, List.map_singleton]
    · rw [if_neg hCount, if_neg fun hBoth => hCount hBoth.2, List.map_nil]
  · have hNone : (repeated names).filter (Violation.isAbout code name ∘ violation) = [] := by
      refine List.filter_eq_nil_iff.mpr fun entry _ => ?_
      simp [Violation.isAbout, hOwn, hCode]
    rw [hNone, if_neg fun hBoth => hCode hBoth.1, List.map_nil]

theorem filter_isAbout_rootViolations {code : RuleCode} (aggregate : Aggregate) (hMany : code ≠ .manyRoots)
    (hNone : code ≠ .noRoot) : (rootViolations aggregate).filter (Violation.isAbout code name) = [] := by
  have hCode : ∀ violation ∈ rootViolations aggregate, violation.code ≠ code :=
    forall_rootViolations_iff.mpr ⟨fun hEq => absurd hEq hMany, fun hEq => absurd hEq hNone⟩
  refine List.filter_eq_nil_iff.mpr fun violation hMem => ?_
  simp [Violation.isAbout, hCode violation hMem]

theorem code_repetition? {kind : ObjectKind} {count : Nat} {violation : Violation}
    (h : kind.repetition? name count = some violation) :
    violation.code = .repeatedEntity ∨ violation.code = .repeatedValueObject := by
  cases kind with
  | entity =>
    cases h
    exact .inl rfl
  | valueObject =>
    cases h
    exact .inr rfl
  | domainEvent => cases h
  | command => cases h

/-- What is reported of the uses of one kind that an aggregate makes of a name. -/
def ObjectKind.repetitions (kind : ObjectKind) (name : String) (aggregate : Aggregate) : List Violation :=
  let count := (aggregate.namesOf kind).count name
  if 1 < count then (kind.repetition? name count).toList else []

theorem filter_aggregateViolations {kind : ObjectKind} {count : Nat} {violation : Violation}
    (h : kind.repetition? name count = some violation) (aggregate : Aggregate) :
    (repeatedMembers aggregate ++ rootViolations aggregate).filter (Violation.isAbout violation.code name) =
      kind.repetitions name aggregate := by
  have hEntities := fun code => @filter_isAbout_repeated name (fun entry => .repeatedEntity entry.1 entry.2)
    .repeatedEntity code (aggregate.entities.map (·.name)) (fun _ => rfl) fun _ => rfl
  have hValueObjects := fun code => @filter_isAbout_repeated name (fun entry => .repeatedValueObject entry.1 entry.2)
    .repeatedValueObject code (aggregate.valueObjects.map (·.name)) (fun _ => rfl) fun _ => rfl
  have hRoots : (rootViolations aggregate).filter (Violation.isAbout violation.code name) = [] := by
    apply filter_isAbout_rootViolations <;> rcases code_repetition? h with hCode | hCode <;> simp [hCode]
  rw [repeatedMembers, List.filter_append, List.filter_append, hEntities, hValueObjects, hRoots]
  cases kind with
  | entity =>
    cases h
    simp [ObjectKind.repetitions, ObjectKind.repetition?, Violation.code, aggregate.namesOf_entity]
  | valueObject =>
    cases h
    simp [ObjectKind.repetitions, ObjectKind.repetition?, Violation.code, aggregate.namesOf_valueObject]
  | domainEvent => cases h
  | command => cases h

theorem repetitions_eq_nil {kind : ObjectKind} {owner : SitedAggregate} (h : name ∉ owner.names) :
    kind.repetitions name owner.placed.aggregate = [] := by
  have hNone : name ∉ owner.placed.aggregate.namesOf kind := by
    intro hMem
    rw [SitedAggregate.names, ← Aggregate.map_domainObjects] at h
    exact h ((List.filter_sublist.map _).subset hMem)
  rw [ObjectKind.repetitions, List.count_eq_zero.mpr hNone]
  rfl

namespace Model

/-- The repetitions reported of a name are those of its owners. -/
theorem about_repetition {kind : ObjectKind} {count : Nat} {violation : Violation}
    (h : kind.repetition? name count = some violation) :
    model.validate.about violation.code name =
      (model.ownersOf name).flatMap fun owner =>
        (kind.repetitions name owner.placed.aggregate).map fun found => ⟨found, owner.location⟩ := by
  have hCode := code_repetition? h
  have hRule : violation.code.rule = .structures := by
    rcases hCode with hCode | hCode <;> rw [hCode] <;> rfl
  rw [about_validate, hRule, Rule.findings, List.filter_flatMap, flatMap_elements_model, ← flatMap_ownersOf]
  · refine List.flatMap_congr fun owner _ => ?_
    rw [structureFindings, List.filter_map]
    exact congrArg _ (filter_aggregateViolations h owner.placed.aggregate)
  · intro owner hOwner
    rw [repetitions_eq_nil hOwner, List.map_nil]
  · intro element location hOther
    refine filter_eq_nil_of_lacks name (lacks_structureFindings.mpr ?_)
    cases element with
    | boundedContext context =>
      intro hEq
      rw [hEq] at hCode
      rcases hCode with hCode | hCode <;> cases hCode
    | aggregate aggregate => exact absurd rfl (hOther aggregate)
    | _ => trivial

/-! ## Shared names -/

theorem sharedName_eq_some {uses : List Occurrence} {first : Occurrence} (hUses : ¬ Unshared uses)
    (hFirst : first ∈ uses.head?) : sharedName name uses = some ⟨.sharedName name uses, first.aggregate⟩ := by
  have hSome : sharedName name uses ≠ none := fun hNone => hUses (sharedName_eq_none_iff.mp hNone)
  match uses with
  | [] => cases hFirst
  | [_] => exact absurd rfl hSome
  | _ :: second :: others =>
    cases hFirst
    by_cases hReported : reportedInAggregate first (second :: others) = true
    · exact absurd (if_pos hReported) hSome
    · exact if_neg hReported

theorem isAbout_of_sharedName {other : String} {uses : List Occurrence} {finding : Finding}
    (h : sharedName other uses = some finding) : finding.violation.isAbout .sharedName name = (other == name) := by
  unfold sharedName at h
  split at h
  · cases h
  · cases h
  · split at h <;> cases h
    simp [Violation.isAbout, Violation.code, Violation.repeatedName?]

theorem about_sharedName : model.validate.about .sharedName name = (sharedName name (model.uses name)).toList := by
  have hAbout : ∀ other, (sharedName other (valuesOf model.occurrences other)).filter
      (fun finding => finding.violation.isAbout .sharedName name) =
        if other == name then sharedName other (valuesOf model.occurrences other) else none := by
    intro other
    cases hFound : sharedName other (valuesOf model.occurrences other) with
    | none => simp
    | some finding => simp [Option.filter, isAbout_of_sharedName hFound]
  rw [about_validate, RuleCode.rule, Rule.findings, sharedNames, group_eq, List.filterMap_map, List.filter_filterMap]
  simp only [Function.comp_def, hAbout]
  rw [← List.filterMap_filter, filter_beq_eraseDups, ← valuesOf_occurrences]
  by_cases hMem : name ∈ model.occurrences.map (·.1)
  · rw [if_pos hMem]
    cases hFound : sharedName name (valuesOf model.occurrences name) <;> simp [hFound]
  · rw [if_neg hMem, valuesOf_eq_nil hMem]
    rfl

/-! ## What is reported and what is not -/

theorem ownersOf_ne_nil (h : model.uses name ≠ []) : model.ownersOf name ≠ [] := by
  intro hNone
  rw [uses_eq_flatMap_ownersOf, hNone] at h
  exact h rfl

theorem mem_uses_of_mem_ownersOf {owner : SitedAggregate} (h : owner ∈ model.ownersOf name) :
    ∃ use ∈ model.uses name, use.aggregate = owner.location := by
  obtain ⟨hMem, hName⟩ := List.mem_filter.mp h
  obtain ⟨use, hUse, hLocation⟩ := SitedAggregate.exists_mem_uses (of_decide_eq_true hName)
  exact ⟨use, List.mem_flatMap.mpr ⟨owner, hMem, hUse⟩, hLocation⟩

theorem length_ownersOf_le : (model.ownersOf name).length ≤ (model.uses name).length := by
  rw [uses_eq_flatMap_ownersOf, List.length_flatMap]
  refine le_of_eq_of_le (List.length_map _).symm (List.length_le_sum_of_one_le _ (List.forall_mem_map.mpr ?_))
  intro owner hOwner
  obtain ⟨use, hUse, -⟩ := SitedAggregate.exists_mem_uses (of_decide_eq_true (List.mem_filter.mp hOwner).2)
  exact List.length_pos_of_mem hUse

theorem KeptTo.uses_eq {kind : ObjectKind} {owner : SitedAggregate} (h : model.KeptTo name kind owner) :
    model.uses name = owner.uses name := by
  rw [uses_eq_flatMap_ownersOf, h.owner, List.flatMap_singleton]

theorem KeptTo.unshared {kind : ObjectKind} {owner : SitedAggregate} (h : model.KeptTo name kind owner)
    (hKind : kind = .entity ∨ kind = .valueObject) : Unshared (model.uses name) := by
  refine .inr ⟨kind, owner.location, hKind, fun use hUse => ⟨h.kind use hUse, ?_⟩⟩
  rw [h.uses_eq] at hUse
  exact SitedAggregate.aggregate_eq_of_mem_uses hUse

/-- Unshared uses are kept to one aggregate, unless several are confused. -/
theorem exists_keptTo_of_unshared (hUses : 2 ≤ (model.uses name).length) (h : Unshared (model.uses name))
    (hClear : ¬ model.Confuses name) :
    ∃ kind owner, (kind = .entity ∨ kind = .valueObject) ∧ model.KeptTo name kind owner := by
  obtain hOne | ⟨kind, location, hKind, hAlike⟩ := h
  · omega
  · have hNonempty : model.uses name ≠ [] := List.ne_nil_of_length_pos (by omega)
    match hOwners : model.ownersOf name with
    | [] => exact absurd hOwners (ownersOf_ne_nil hNonempty)
    | [owner] => exact ⟨kind, owner, hKind, hOwners, fun use hUse => (hAlike use hUse).1⟩
    | _ :: _ :: _ =>
      exact absurd ⟨by rw [hOwners]; exact Nat.le_add_left 2 _, kind, location, hKind, hAlike⟩ hClear

theorem reports_of_not_confuses (hClear : ¬ model.Confuses name) : model.Reports name where
  single hLength := by
    have hNone : sharedName name (model.uses name) = none := sharedName_eq_none_iff.mpr (.inl hLength)
    rw [about_sharedName, hNone, Option.toList_none]
  kept kind owner violation hLength hKept hViolation := by
    have hKind : kind = .entity ∨ kind = .valueObject := by
      cases kind <;> simp_all [ObjectKind.repetition?]
    have hNone : sharedName name (model.uses name) = none := sharedName_eq_none_iff.mpr (hKept.unshared hKind)
    have hCount : (owner.placed.aggregate.namesOf kind).count name = (model.uses name).length := by
      have hKinds := hKept.kind
      rw [hKept.uses_eq] at hKinds ⊢
      exact (SitedAggregate.length_uses hKinds).symm
    refine ⟨?_, by rw [about_sharedName, hNone, Option.toList_none]⟩
    have hSeveral : 1 < (model.uses name).length := hLength
    rw [about_repetition hViolation, hKept.owner, List.flatMap_singleton, ObjectKind.repetitions, hCount, hViolation,
      if_pos hSeveral, Option.toList_some, List.map_singleton]
  shared hLength hOther first hFirst := by
    have hShared : ¬ Unshared (model.uses name) := by
      intro hUnshared
      obtain ⟨kind, owner, hKind, hKept⟩ := exists_keptTo_of_unshared hLength hUnshared hClear
      have hNone := hOther kind owner hKept
      rcases hKind with rfl | rfl <;> cases hNone
    rw [about_sharedName, sharedName_eq_some hShared hFirst, Option.toList_some]

theorem not_reports_of_confuses (h : model.Confuses name) : ¬ model.Reports name := by
  intro hReports
  have hLength := Nat.le_trans h.owners length_ownersOf_le
  have hNotKept : ∀ kind owner, ¬ model.KeptTo name kind owner := by
    intro kind owner hKept
    have hOwners := h.owners
    rw [hKept.owner, List.length_singleton] at hOwners
    omega
  obtain ⟨first, others, hUses⟩ := List.exists_cons_of_length_pos (Nat.lt_of_lt_of_le Nat.zero_lt_two hLength)
  have hReported := hReports.shared hLength (fun kind owner hKept => absurd hKept (hNotKept kind owner)) first
    (by rw [hUses]; rfl)
  have hNone : sharedName name (model.uses name) = none := sharedName_eq_none_iff.mpr (.inr h.alike)
  rw [about_sharedName, hNone] at hReported
  cases hReported

/-- Confusion takes contexts of one name, or aggregates of one name in one context. -/
theorem not_confuses_of_located (h : model.Located) : ¬ model.Confuses name := by
  intro hConfuses
  obtain ⟨kind, location, -, hAlike⟩ := hConfuses.alike
  have hLocation : ∀ owner ∈ model.ownersOf name, owner.location = location := by
    intro owner hOwner
    obtain ⟨use, hUse, hEq⟩ := mem_uses_of_mem_ownersOf hOwner
    exact hEq.symm.trans (hAlike use hUse).2
  have hNodup : ((model.ownersOf name).map (·.location)).Nodup :=
    h.nodup_locations.sublist (List.filter_sublist.map _)
  have hReplicate : (model.ownersOf name).map (·.location) = List.replicate (model.ownersOf name).length location := by
    rw [List.eq_replicate_iff, List.length_map]
    exact ⟨rfl, List.forall_mem_map.mpr hLocation⟩
  rw [hReplicate, List.nodup_replicate] at hNodup
  have hOwners := hConfuses.owners
  omega

end Model

theorem reports_iff_not_confuses (model : Model) (name : String) :
    (model.Reports name ↔ ¬ model.Confuses name) ∧
      (model.Confuses name → ∃ finding ∈ model.validate.findings,
        finding.code = .repeatedContext ∨ finding.code = .repeatedAggregate) := by
  refine ⟨⟨fun hReports hConfuses => Model.not_reports_of_confuses hConfuses hReports, Model.reports_of_not_confuses⟩,
    fun hConfuses => ?_⟩
  by_contra hNone
  have hLacks : Lacks .repeatedContext model.validate.findings ∧ Lacks .repeatedAggregate model.validate.findings :=
    ⟨fun finding hFinding hCode => hNone ⟨finding, hFinding, .inl hCode⟩,
      fun finding hFinding hCode => hNone ⟨finding, hFinding, .inr hCode⟩⟩
  rw [lacks_validate_iff_keeps, lacks_validate_iff_keeps] at hLacks
  exact Model.not_confuses_of_located ⟨hLacks.1, hLacks.2⟩ hConfuses

/-- Two contexts of one name, each with an aggregate `Ordering` that has an entity `Order`. -/
def twinContexts : Model :=
  let order : Entity := { name := "Order", isRoot := true }
  let sales : BoundedContext := { name := "Sales", aggregates := [{ name := "Ordering", entities := [order] }] }
  { boundedContexts := [sales, sales] }

/-- No finding tells of the two entities. -/
theorem not_reports_twinContexts :
    ¬ twinContexts.Reports "Order" ∧ (twinContexts.uses "Order").length = 2 ∧
      ∀ finding ∈ twinContexts.validate.findings, finding.violation = .repeatedContext "Sales" 2 := by
  have hConfuses : twinContexts.Confuses "Order" :=
    ⟨by decide +kernel, .entity, Location.ofAggregate "Sales" none "Ordering", .inl rfl, by decide +kernel⟩
  exact ⟨Model.not_reports_of_confuses hConfuses, by decide +kernel, by decide +kernel⟩

end DomainAtlas
