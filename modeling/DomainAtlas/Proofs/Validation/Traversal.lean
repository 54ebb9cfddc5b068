import DomainAtlas.Proofs.Validation.SharedNames

/-! # Aggregates in the traversal

The traversal of a model reaches its aggregates in the order in which the contexts list them, those of a context's modules
last, each at its location. What only aggregates and their parts give rise to is collected in that order.
-/
set_option autoImplicit false

namespace DomainAtlas

/-- An aggregate of a model, with the name of its context. -/
structure SitedAggregate where
  context : String
  placed : PlacedAggregate

namespace SitedAggregate

def location (owner : SitedAggregate) : Location :=
  owner.placed.location owner.context

/-- The location of the context or the module around the aggregate. -/
def parent (owner : SitedAggregate) : Location :=
  match owner.placed.module with
  | some name => (Location.ofContext owner.context).child "Module" name
  | none => Location.ofContext owner.context

theorem location_eq (owner : SitedAggregate) :
    owner.location = owner.parent.child "Aggregate" owner.placed.aggregate.name := rfl

end SitedAggregate

/-- The aggregates of a model in document order. -/
def Model.sitedAggregates (model : Model) : List SitedAggregate :=
  model.boundedContexts.flatMap fun context => context.placedAggregates.map (SitedAggregate.mk context.name)

section Traversal

variable {β : Type} {f : LocatedElement → List β}

/-- What aggregates and their parts give rise to, in the order of the traversal. -/
theorem flatMap_elements_sited (hMap : ∀ map location, f ⟨.contextMap map, location⟩ = [])
    (hContext : ∀ context location, f ⟨.boundedContext context, location⟩ = [])
    (hModule : ∀ module location, f ⟨.module module, location⟩ = []) (model : Model) :
    model.elements.flatMap f =
      model.sitedAggregates.flatMap fun owner => (owner.placed.aggregate.elements owner.parent).flatMap f := by
  have hMaps : (model.contextMap.toList.map ContextMap.element).flatMap f = [] := by
    rw [List.flatMap_map, List.flatMap_eq_nil_iff]
    exact fun map _ => hMap _ _
  have hModules : ∀ (context : BoundedContext) (module : Module) (index : Nat),
      (module.elements (Location.ofContext context.name)).flatMap f =
        (module.placedAggregates index).flatMap fun placed =>
          (placed.aggregate.elements (SitedAggregate.mk context.name placed).parent).flatMap f := by
    intro context module index
    rw [Module.elements, List.flatMap_cons, hModule, List.nil_append, List.flatMap_assoc, Module.placedAggregates,
      List.flatMap_map]
    exact (flatMap_fst_zipIdx _ module.aggregates 0).symm
  have hContexts : ∀ context : BoundedContext,
      context.elements.flatMap f =
        context.placedAggregates.flatMap fun placed =>
          (placed.aggregate.elements (SitedAggregate.mk context.name placed).parent).flatMap f := by
    intro context
    rw [BoundedContext.elements, List.flatMap_cons, hContext, List.nil_append, List.flatMap_append, List.flatMap_assoc,
      List.flatMap_assoc, BoundedContext.placedAggregates, List.flatMap_append, List.flatMap_map, List.flatMap_assoc]
    simp only [← hModules context]
    exact congrArg₂ (· ++ ·) (flatMap_fst_zipIdx _ context.aggregates 0).symm
      (flatMap_fst_zipIdx _ context.modules 0).symm
  rw [Model.elements, List.flatMap_append, hMaps, List.nil_append, List.flatMap_assoc, Model.sitedAggregates,
    List.flatMap_assoc]
  simp only [hContexts, List.flatMap_map]

theorem flatMap_elements_aggregate
    (h : ∀ element location, (∀ aggregate, element ≠ .aggregate aggregate) → f ⟨element, location⟩ = [])
    (parent : Location) (aggregate : Aggregate) :
    (aggregate.elements parent).flatMap f = f ⟨.aggregate aggregate, parent.child "Aggregate" aggregate.name⟩ := by
  rw [Aggregate.elements, List.flatMap_cons]
  refine List.append_right_eq_self.mpr (List.flatMap_eq_nil_iff.mpr ?_)
  simp only [Entity.elements, DomainObject.valueObjectElements, DomainObject.domainEventElements,
    DomainObject.commandElements, Service.elements, attributeElements, operationElements, List.forall_mem_append,
    List.forall_mem_flatMap, List.forall_mem_cons, List.forall_mem_map]
  simp [h]

/-- What only aggregates give rise to, in the order of the traversal. -/
theorem flatMap_elements_model
    (h : ∀ element location, (∀ aggregate, element ≠ .aggregate aggregate) → f ⟨element, location⟩ = [])
    (model : Model) :
    model.elements.flatMap f =
      model.sitedAggregates.flatMap fun owner => f ⟨.aggregate owner.placed.aggregate, owner.location⟩ := by
  rw [flatMap_elements_sited (fun _ _ => h _ _ fun _ hEq => by cases hEq) (fun _ _ => h _ _ fun _ hEq => by cases hEq)
    (fun _ _ => h _ _ fun _ hEq => by cases hEq)]
  simp only [flatMap_elements_aggregate h, SitedAggregate.location_eq]

/-- What only contexts give rise to, in the order of the traversal. -/
theorem flatMap_elements_contexts
    (h : ∀ element location, (∀ context, element ≠ .boundedContext context) → f ⟨element, location⟩ = [])
    (model : Model) :
    model.elements.flatMap f =
      model.boundedContexts.flatMap fun context => f ⟨.boundedContext context, Location.ofContext context.name⟩ := by
  have hMaps : (model.contextMap.toList.map ContextMap.element).flatMap f = [] := by
    rw [List.flatMap_map, List.flatMap_eq_nil_iff]
    exact fun map _ => h _ _ fun _ hEq => by cases hEq
  rw [Model.elements, List.flatMap_append, hMaps, List.nil_append, List.flatMap_assoc]
  refine List.flatMap_congr fun context _ => ?_
  rw [BoundedContext.elements, List.flatMap_cons]
  refine List.append_right_eq_self.mpr (List.flatMap_eq_nil_iff.mpr ?_)
  simp only [Module.elements, Aggregate.elements, Entity.elements, DomainObject.valueObjectElements,
    DomainObject.domainEventElements, DomainObject.commandElements, Service.elements, attributeElements,
    operationElements, List.forall_mem_append, List.forall_mem_flatMap, List.forall_mem_cons, List.forall_mem_map]
  simp [h]

end Traversal

end DomainAtlas
