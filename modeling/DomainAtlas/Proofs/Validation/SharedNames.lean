import DomainAtlas.Proofs.Validation.Keeping
import Mathlib.Data.List.Basic

/-! # Names shared by the whole model

A repeated name goes unreported as shared only where all its uses are entities, or all value objects, at one
location. When no two contexts have one name, and no two aggregates of a context, one location means one
aggregate, and the repetition is reported there.
-/
set_option autoImplicit false

namespace DomainAtlas

open Validation

/-- The names of one kind of member. -/
def Aggregate.namesOf (aggregate : Aggregate) (kind : ObjectKind) : List String :=
  (aggregate.domainObjects.filter fun object => object.1 = kind).map (·.2)

theorem Aggregate.namesOf_entity (aggregate : Aggregate) :
    aggregate.namesOf .entity = aggregate.entities.map (·.name) := by
  simp [Aggregate.namesOf, Aggregate.domainObjects, List.filter_map, Function.comp_def, List.filter_true,
    List.filter_false]

theorem Aggregate.namesOf_valueObject (aggregate : Aggregate) :
    aggregate.namesOf .valueObject = aggregate.valueObjects.map (·.name) := by
  simp [Aggregate.namesOf, Aggregate.domainObjects, List.filter_map, Function.comp_def, List.filter_true,
    List.filter_false]

def PlacedAggregate.location (context : String) (placed : PlacedAggregate) : Location :=
  Location.ofAggregate context placed.module placed.aggregate.name

/-- The last segment of a location names the aggregate, the first one its context. -/
theorem ofAggregate_inj {context context' : String} {module module' : Option String} {name name' : String}
    (h : Location.ofAggregate context module name = Location.ofAggregate context' module' name') :
    context = context' ∧ name = name' := by
  have hSegments := congrArg Location.segments h
  have hFirst := congrArg List.head? hSegments
  have hLast := congrArg List.getLast? hSegments
  cases module <;> cases module' <;>
    simp_all [Location.ofAggregate, Location.ofContext, Location.child, Location.root]

/-- Name and place of the uses of one kind. -/
def Model.usesOf (model : Model) (kind : ObjectKind) : List (String × Location) :=
  model.boundedContexts.flatMap fun context =>
    context.placedAggregates.flatMap fun placed =>
      (placed.aggregate.namesOf kind).map fun name => (name, placed.location context.name)

theorem usesOf_eq (model : Model) (kind : ObjectKind) :
    (model.occurrences.filter fun entry => entry.2.kind = kind).map (fun entry => (entry.1, entry.2.aggregate)) =
      model.usesOf kind := by
  simp only [Model.occurrences, BoundedContext.occurrences, PlacedAggregate.occurrences, List.filter_flatMap,
    List.map_flatMap, List.filter_map, List.map_map, Model.usesOf, Aggregate.namesOf]
  rfl

/-- No two contexts, and no two aggregates of a context, have one name. -/
structure Model.Located (model : Model) : Prop where
  contexts : model.contextNames.Nodup
  aggregates : ∀ context ∈ model.boundedContexts, (context.aggregateList.map (·.name)).Nodup

theorem map_name_placedAggregates (context : BoundedContext) :
    context.placedAggregates.map (·.aggregate.name) = context.aggregateList.map (·.name) := by
  rw [← context.allAggregates_eq, BoundedContext.allAggregates, List.map_map]
  rfl

theorem aggregate_mem_of_placed {model : Model} {context : BoundedContext} {placed : PlacedAggregate}
    (hContext : context ∈ model.boundedContexts) (hPlaced : placed ∈ context.placedAggregates) :
    placed.aggregate ∈ model.aggregateList := by
  refine List.mem_flatMap.mpr ⟨context, hContext, ?_⟩
  rw [← context.allAggregates_eq]
  exact List.mem_map_of_mem hPlaced

theorem Model.Located.nodup_usesOf {model : Model} (h : model.Located) {kind : ObjectKind}
    (hNames : ∀ aggregate ∈ model.aggregateList, (aggregate.namesOf kind).Nodup) : (model.usesOf kind).Nodup := by
  have hLocation : ∀ {context : BoundedContext} {placed : PlacedAggregate} {use : String × Location},
      use ∈ (placed.aggregate.namesOf kind).map (fun name => (name, placed.location context.name)) →
        use.2 = placed.location context.name := by
    intro context placed use hUse
    obtain ⟨name, -, rfl⟩ := List.mem_map.mp hUse
    rfl
  refine List.pairwise_flatMap.mpr ⟨fun context hContext => List.pairwise_flatMap.mpr ⟨?_, ?_⟩, ?_⟩
  · intro placed hPlaced
    rw [List.pairwise_map]
    refine (hNames _ (aggregate_mem_of_placed hContext hPlaced)).imp ?_
    rintro name name' hNe hEq
    exact hNe (congrArg Prod.fst hEq)
  · have hAggregates := h.aggregates context hContext
    rw [← map_name_placedAggregates] at hAggregates
    refine (List.pairwise_map.mp hAggregates).imp ?_
    rintro placed placed' hNe use hUse use' hUse' rfl
    have hEq := (hLocation hUse).symm.trans (hLocation hUse')
    exact hNe (ofAggregate_inj hEq).2
  · refine (List.pairwise_map.mp h.contexts).imp ?_
    rintro context context' hNe use hUse use' hUse' rfl
    obtain ⟨placed, -, hMem⟩ := List.mem_flatMap.mp hUse
    obtain ⟨placed', -, hMem'⟩ := List.mem_flatMap.mp hUse'
    have hEq := (hLocation hMem).symm.trans (hLocation hMem')
    exact hNe (ofAggregate_inj hEq).1

/-! ## Uses of one name -/

theorem map_fst_occurrences (model : Model) :
    model.occurrences.map (·.1) = model.objectNames := by
  have hContext (context : BoundedContext) :
      context.occurrences.map (·.1) = context.aggregateList.flatMap Aggregate.objectNames := by
    rw [← context.allAggregates_eq, BoundedContext.allAggregates, List.flatMap_map, BoundedContext.occurrences,
      List.map_flatMap]
    refine List.flatMap_congr fun placed _ => ?_
    rw [PlacedAggregate.occurrences, List.map_map, ← Aggregate.map_domainObjects]
    rfl
  rw [Model.occurrences, List.map_flatMap, Model.objectNames, Model.aggregateList, List.flatMap_assoc]
  exact List.flatMap_congr fun context _ => hContext context

theorem length_valuesOf (model : Model) (name : String) :
    (valuesOf model.occurrences name).length = model.objectNames.count name := by
  rw [← map_fst_occurrences, valuesOf, List.length_map, List.count, List.countP_map,
    List.countP_eq_length_filter]
  rfl

/-- Uses of one name that are all of one kind and at one place are repeated there. -/
theorem replicate_sublist_usesOf {model : Model} {name : String} {kind : ObjectKind} {location : Location}
    (h : ∀ use ∈ valuesOf model.occurrences name, use.kind = kind ∧ use.aggregate = location) :
    (List.replicate (valuesOf model.occurrences name).length (name, location)).Sublist (model.usesOf kind) := by
  have hUses : ∀ entry ∈ model.occurrences, entry.1 == name →
      entry.2.kind = kind ∧ (entry.1, entry.2.aggregate) = (name, location) := by
    intro entry hEntry hName
    have hMem : entry.2 ∈ valuesOf model.occurrences name :=
      List.mem_map_of_mem (List.mem_filter.mpr ⟨hEntry, hName⟩)
    obtain ⟨hKind, hLocation⟩ := h entry.2 hMem
    exact ⟨hKind, Prod.ext (beq_iff_eq.mp hName) hLocation⟩
  have hReplicate : (model.occurrences.filter fun entry => entry.1 == name).map
      (fun entry => (entry.1, entry.2.aggregate)) =
        List.replicate (valuesOf model.occurrences name).length (name, location) := by
    rw [valuesOf, List.length_map, List.eq_replicate_iff, List.length_map]
    refine ⟨rfl, fun use hUse => ?_⟩
    obtain ⟨entry, hEntry, rfl⟩ := List.mem_map.mp hUse
    obtain ⟨hMem, hName⟩ := List.mem_filter.mp hEntry
    exact (hUses entry hMem hName).2
  have hFilter : model.occurrences.filter (fun entry => entry.1 == name) =
      (model.occurrences.filter fun entry => entry.2.kind = kind).filter fun entry => entry.1 == name := by
    rw [List.filter_filter]
    refine List.filter_congr fun entry hEntry => ?_
    cases hName : entry.1 == name with
    | false => rfl
    | true => simp [(hUses entry hEntry hName).1]
  rw [← hReplicate, ← usesOf_eq, hFilter]
  exact List.filter_sublist.map _

theorem Model.Located.nodup_objectNames_iff {model : Model} (h : model.Located) :
    model.objectNames.Nodup ↔
      model.Keeps .repeatedEntity ∧ model.Keeps .repeatedValueObject ∧ model.Keeps .sharedName := by
  constructor
  · intro hNodup
    have hOwn : ∀ aggregate ∈ model.aggregateList, aggregate.objectNames.Nodup :=
      (List.pairwise_flatMap.mp hNodup).1
    refine ⟨fun aggregate hMem => ?_, fun aggregate hMem => ?_, fun name => Or.inl ?_⟩
    · have hNames := hOwn aggregate hMem
      rw [Aggregate.objectNames, List.append_assoc, List.append_assoc] at hNames
      exact (List.nodup_append.mp hNames).1
    · have hNames := hOwn aggregate hMem
      rw [Aggregate.objectNames, List.append_assoc, List.append_assoc] at hNames
      exact (List.nodup_append.mp (List.nodup_append.mp hNames).2.1).1
    · rw [length_valuesOf]
      exact List.nodup_iff_count.mp hNodup name
  · rintro ⟨hEntities, hValueObjects, hShared⟩
    refine List.nodup_iff_count.mpr fun name => ?_
    rw [← length_valuesOf]
    obtain hOne | ⟨kind, location, hKind, hUses⟩ := hShared name
    · exact hOne
    · have hNodup : (model.usesOf kind).Nodup := by
        apply h.nodup_usesOf
        intro aggregate hMem
        rcases hKind with rfl | rfl
        · rw [aggregate.namesOf_entity]
          exact hEntities aggregate hMem
        · rw [aggregate.namesOf_valueObject]
          exact hValueObjects aggregate hMem
      exact List.nodup_replicate.mp (hNodup.sublist (replicate_sublist_usesOf hUses))

end DomainAtlas
