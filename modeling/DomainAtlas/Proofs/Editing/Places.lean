import DomainAtlas.Proofs.Validation.Elements
import DomainAtlas.Editing.Edit

/-! # Changing what was looked up

A lookup splits a list at the element that it finds, and a change at the place of the element leaves both parts
as they are.
-/
set_option autoImplicit false

namespace DomainAtlas

variable {α : Type}

theorem exists_split_of_mem_zipIdx {values : List α} {value : α} {index : Nat}
    (h : (value, index) ∈ values.zipIdx) :
    ∃ front back, values = front ++ value :: back ∧
      ∀ change : α → α, values.modify index change = front ++ change value :: back := by
  obtain ⟨hIndex, hValue⟩ := List.getElem?_eq_some_iff.mp (List.mk_mem_zipIdx_iff_getElem?.mp h)
  refine ⟨values.take index, values.drop (index + 1), ?_, fun change => ?_⟩
  · rw [← hValue, List.getElem_cons_drop, List.take_append_drop]
  · rw [List.modify_eq_take_cons_drop hIndex, hValue]

/-! ## Contexts -/

theorem mem_placedContexts {model : Model} {placed : PlacedContext} :
    placed ∈ model.placedContexts ↔ (placed.context, placed.index) ∈ model.boundedContexts.zipIdx := by
  constructor
  · intro h
    obtain ⟨⟨context, index⟩, hMem, rfl⟩ := List.mem_map.mp h
    exact hMem
  · intro h
    exact List.mem_map.mpr ⟨_, h, rfl⟩

theorem findContext?_eq_some {model : Model} {name : String} {placed : PlacedContext}
    (h : model.findContext? name = some placed) :
    placed.context.name = name ∧ ∃ front back, model.boundedContexts = front ++ placed.context :: back ∧
      ∀ change, model.modifyContext placed.index change =
        { model with boundedContexts := front ++ change placed.context :: back } := by
  have hName := List.find?_some h
  refine ⟨beq_iff_eq.mp hName, ?_⟩
  obtain ⟨front, back, hSplit, hModify⟩ :=
    exists_split_of_mem_zipIdx (mem_placedContexts.mp (List.mem_of_find?_eq_some h))
  refine ⟨front, back, hSplit, fun change => ?_⟩
  rw [Model.modifyContext, hModify]

theorem mem_of_findContext? {model : Model} {name : String} {placed : PlacedContext}
    (h : model.findContext? name = some placed) : placed.context ∈ model.boundedContexts := by
  obtain ⟨-, front, back, hSplit, -⟩ := findContext?_eq_some h
  rw [hSplit]
  exact List.mem_append_right _ List.mem_cons_self

/-! ## Aggregates -/

theorem mem_placedAggregates {context : BoundedContext} {placed : PlacedAggregate}
    (h : placed ∈ context.placedAggregates) :
    ∃ front back, context.aggregateList = front ++ placed.aggregate :: back ∧
      ∀ change, (context.modifyAggregate placed.place change).aggregateList =
        front ++ change placed.aggregate :: back := by
  rcases List.mem_append.mp h with hDirect | hInModule
  · obtain ⟨⟨aggregate, index⟩, hMem, rfl⟩ := List.mem_map.mp hDirect
    obtain ⟨front, back, hSplit, hModify⟩ := exists_split_of_mem_zipIdx hMem
    refine ⟨front, back ++ context.modules.flatMap (·.aggregates), ?_, fun change => ?_⟩
    · rw [BoundedContext.aggregateList, hSplit, List.append_assoc, List.cons_append]
    · rw [BoundedContext.aggregateList, BoundedContext.modifyAggregate, hModify, List.append_assoc,
        List.cons_append]
  · obtain ⟨⟨module, position⟩, hModule, hPlaced⟩ := List.mem_flatMap.mp hInModule
    obtain ⟨⟨aggregate, index⟩, hMem, rfl⟩ := List.mem_map.mp hPlaced
    change (aggregate, index) ∈ module.aggregates.zipIdx at hMem
    obtain ⟨modulesFront, modulesBack, hModules, hModifyModule⟩ := exists_split_of_mem_zipIdx hModule
    obtain ⟨front, back, hSplit, hModify⟩ := exists_split_of_mem_zipIdx hMem
    refine ⟨context.aggregates ++ modulesFront.flatMap (·.aggregates) ++ front,
      back ++ modulesBack.flatMap (·.aggregates), ?_, fun change => ?_⟩
    · simp only [BoundedContext.aggregateList, hModules, hSplit, List.flatMap_append, List.flatMap_cons,
        List.append_assoc, List.cons_append]
    · simp only [BoundedContext.aggregateList, BoundedContext.modifyAggregate, hModifyModule, hModify,
        List.flatMap_append, List.flatMap_cons, List.append_assoc, List.cons_append]

theorem name_modifyAggregate (context : BoundedContext) (place : AggregatePlace) (change : Aggregate → Aggregate) :
    (context.modifyAggregate place change).name = context.name := by
  cases place <;> rfl

theorem findAggregate?_eq_some {context : BoundedContext} {name : String} {placed : PlacedAggregate}
    (h : context.findAggregate? name = some placed) :
    placed.aggregate.name = name ∧ placed ∈ context.placedAggregates := by
  have hName := List.find?_some h
  exact ⟨beq_iff_eq.mp hName, List.mem_of_find?_eq_some h⟩

theorem hasAggregate_iff {context : BoundedContext} {name : String} :
    context.hasAggregate name = true ↔ name ∈ context.aggregateList.map (·.name) := by
  rw [BoundedContext.hasAggregate, BoundedContext.findAggregate?, List.find?_isSome, ← context.allAggregates_eq,
    BoundedContext.allAggregates, List.map_map, List.mem_map]
  simp only [beq_iff_eq, Function.comp_apply]

end DomainAtlas
