import DomainAtlas.Model.Place
import DomainAtlas.Validation.Elements

/-! # What a model contains

The aggregates of a model, and what they contain, as plain lists. The traversal of a model reaches these
elements, the contexts, the modules and the map, and no others.
-/
set_option autoImplicit false

namespace DomainAtlas

/-- The aggregates of a context, those of its modules last. -/
def BoundedContext.aggregateList (context : BoundedContext) : List Aggregate :=
  context.aggregates ++ context.modules.flatMap (·.aggregates)

def Model.aggregateList (model : Model) : List Aggregate :=
  model.boundedContexts.flatMap BoundedContext.aggregateList

namespace Aggregate

def attributes (aggregate : Aggregate) : List Attribute :=
  aggregate.entities.flatMap (·.attributes) ++ aggregate.valueObjects.flatMap (·.attributes)
    ++ aggregate.domainEvents.flatMap (·.attributes) ++ aggregate.commands.flatMap (·.attributes)

def operations (aggregate : Aggregate) : List Operation :=
  aggregate.entities.flatMap (·.operations) ++ aggregate.services.flatMap (·.operations)

/-- The names of the entities, value objects, domain events and commands. -/
def objectNames (aggregate : Aggregate) : List String :=
  aggregate.entities.map (·.name) ++ aggregate.valueObjects.map (·.name)
    ++ aggregate.domainEvents.map (·.name) ++ aggregate.commands.map (·.name)

/-- The types of all attributes, parameters and returned values. -/
def types (aggregate : Aggregate) : List String :=
  aggregate.attributes.map (·.type)
    ++ aggregate.operations.flatMap fun member => member.returnType.toList ++ member.parameters.map (·.type)

/-- The names that must not be reserved. -/
def guardedNames (aggregate : Aggregate) : List String :=
  aggregate.name :: (aggregate.objectNames ++ aggregate.services.map (·.name))

end Aggregate

/-- The names that the whole model shares. -/
def Model.objectNames (model : Model) : List String :=
  model.aggregateList.flatMap Aggregate.objectNames

theorem map_aggregate_zipIdx (aggregates : List Aggregate) (place : Nat → AggregatePlace)
    (module : Option String) :
    (aggregates.zipIdx.map fun entry => (⟨place entry.2, module, entry.1⟩ : PlacedAggregate)).map (·.aggregate) =
      aggregates := by
  rw [List.map_map]
  exact List.zipIdx_map_fst 0 aggregates

theorem Module.map_placedAggregates (module : Module) (index : Nat) :
    (module.placedAggregates index).map (·.aggregate) = module.aggregates :=
  map_aggregate_zipIdx module.aggregates _ _

theorem flatMap_fst_zipIdx {α β : Type} (f : α → List β) (values : List α) (start : Nat) :
    (values.zipIdx start).flatMap (fun entry => f entry.1) = values.flatMap f := by
  induction values generalizing start with
  | nil => rfl
  | cons value values ih => rw [List.zipIdx_cons, List.flatMap_cons, ih, List.flatMap_cons]

theorem BoundedContext.allAggregates_eq (context : BoundedContext) :
    context.allAggregates = context.aggregateList := by
  rw [BoundedContext.allAggregates, BoundedContext.placedAggregates, List.map_append, map_aggregate_zipIdx,
    List.map_flatMap]
  simp only [Module.map_placedAggregates]
  rw [flatMap_fst_zipIdx]
  rfl

theorem Aggregate.map_domainObjects (aggregate : Aggregate) :
    aggregate.domainObjects.map (·.2) = aggregate.objectNames := by
  simp [Aggregate.domainObjects, Aggregate.objectNames, Function.comp_def]

/-! ## The traversal -/

section Traversal

variable (Holds : Element → Prop)

/-- What holds of an aggregate and of everything in it. -/
structure Aggregate.Throughout (aggregate : Aggregate) : Prop where
  self : Holds (.aggregate aggregate)
  entities : ∀ entity ∈ aggregate.entities, Holds (.entity entity)
  valueObjects : ∀ object ∈ aggregate.valueObjects, Holds (.valueObject object)
  domainEvents : ∀ object ∈ aggregate.domainEvents, Holds (.domainEvent object)
  commands : ∀ object ∈ aggregate.commands, Holds (.command object)
  services : ∀ service ∈ aggregate.services, Holds (.service service)
  attributes : ∀ member ∈ aggregate.attributes, Holds (.attribute member)
  operations : ∀ member ∈ aggregate.operations, Holds (.operation member)

theorem Aggregate.forall_elements_iff (parent : Location) (aggregate : Aggregate) :
    (∀ located ∈ aggregate.elements parent, Holds located.element) ↔ aggregate.Throughout Holds := by
  simp only [Aggregate.elements, Entity.elements, DomainObject.valueObjectElements,
    DomainObject.domainEventElements, DomainObject.commandElements, Service.elements, attributeElements,
    operationElements, List.forall_mem_cons, List.forall_mem_append, List.forall_mem_flatMap, List.forall_mem_map]
  constructor
  · rintro ⟨hSelf, ⟨⟨⟨hEntities, hValueObjects⟩, hDomainEvents⟩, hCommands⟩, hServices⟩
    refine ⟨hSelf, fun entity h => (hEntities entity h).1, fun object h => (hValueObjects object h).1,
      fun object h => (hDomainEvents object h).1, fun object h => (hCommands object h).1,
      fun service h => (hServices service h).1, ?_, ?_⟩
    · simp only [Aggregate.attributes, List.forall_mem_append, List.forall_mem_flatMap]
      exact ⟨⟨⟨fun entity h => (hEntities entity h).2.1, fun object h => (hValueObjects object h).2⟩,
        fun object h => (hDomainEvents object h).2⟩, fun object h => (hCommands object h).2⟩
    · simp only [Aggregate.operations, List.forall_mem_append, List.forall_mem_flatMap]
      exact ⟨fun entity h => (hEntities entity h).2.2, fun service h => (hServices service h).2⟩
  · intro h
    have hAttributes := h.attributes
    have hOperations := h.operations
    simp only [Aggregate.attributes, List.forall_mem_append, List.forall_mem_flatMap] at hAttributes
    simp only [Aggregate.operations, List.forall_mem_append, List.forall_mem_flatMap] at hOperations
    obtain ⟨⟨⟨hOfEntities, hOfValueObjects⟩, hOfDomainEvents⟩, hOfCommands⟩ := hAttributes
    obtain ⟨hByEntities, hByServices⟩ := hOperations
    refine ⟨h.self, ⟨⟨⟨?_, ?_⟩, ?_⟩, ?_⟩, ?_⟩
    · exact fun entity hMem => ⟨h.entities entity hMem, hOfEntities entity hMem, hByEntities entity hMem⟩
    · exact fun object hMem => ⟨h.valueObjects object hMem, hOfValueObjects object hMem⟩
    · exact fun object hMem => ⟨h.domainEvents object hMem, hOfDomainEvents object hMem⟩
    · exact fun object hMem => ⟨h.commands object hMem, hOfCommands object hMem⟩
    · exact fun service hMem => ⟨h.services service hMem, hByServices service hMem⟩

/-- What holds of a model's map, contexts and modules, and throughout its aggregates. -/
structure Model.Throughout (model : Model) : Prop where
  contextMap : ∀ map ∈ model.contextMap, Holds (.contextMap map)
  contexts : ∀ context ∈ model.boundedContexts, Holds (.boundedContext context)
  modules : ∀ context ∈ model.boundedContexts, ∀ module ∈ context.modules, Holds (.module module)
  aggregates : ∀ aggregate ∈ model.aggregateList, aggregate.Throughout Holds

theorem Model.forall_elements_iff (model : Model) :
    (∀ located ∈ model.elements, Holds located.element) ↔ model.Throughout Holds := by
  simp only [Model.elements, BoundedContext.elements, Module.elements, ContextMap.element,
    List.forall_mem_cons, List.forall_mem_append, List.forall_mem_flatMap, List.forall_mem_map,
    Aggregate.forall_elements_iff]
  constructor
  · rintro ⟨hMap, hContexts⟩
    refine ⟨fun map h => hMap map (Option.mem_toList.mpr h), fun context h => (hContexts context h).1,
      fun context h module hModule => ((hContexts context h).2.2 module hModule).1, ?_⟩
    simp only [Model.aggregateList, BoundedContext.aggregateList, List.forall_mem_append, List.forall_mem_flatMap]
    exact fun context h => ⟨(hContexts context h).2.1, fun module hModule =>
      ((hContexts context h).2.2 module hModule).2⟩
  · intro h
    have hAggregates := h.aggregates
    simp only [Model.aggregateList, BoundedContext.aggregateList, List.forall_mem_append,
      List.forall_mem_flatMap] at hAggregates
    refine ⟨fun map hMap => h.contextMap map (Option.mem_toList.mp hMap), fun context hContext => ?_⟩
    exact ⟨h.contexts context hContext, (hAggregates context hContext).1, fun module hModule =>
      ⟨h.modules context hContext module hModule, (hAggregates context hContext).2 module hModule⟩⟩

end Traversal

end DomainAtlas
