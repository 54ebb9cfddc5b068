import DomainAtlas.Proofs.Editing.Places
import DomainAtlas.Proofs.Editing.Steps

/-! # The lists that edits add to

An edit names the context and the aggregate that it means. It means the first of that name: a relation says
which one that is, where it stands, and what the model becomes when something else stands there. Lookup finds
it, and finds what has replaced it in the same place as long as the name is kept.
-/
set_option autoImplicit false

namespace DomainAtlas

variable {α : Type}

/-- `value` is the first of the values that `Holds` is true of, `front` stands before it and `back` after it. -/
structure FirstWith (Holds : α → Prop) (values front : List α) (value : α) (back : List α) : Prop where
  split : values = front ++ value :: back
  holds : Holds value
  before : ∀ other ∈ front, ¬ Holds other

theorem exists_firstWith {Holds : α → Prop} {values : List α} (h : ∃ value ∈ values, Holds value) :
    ∃ front value back, FirstWith Holds values front value back := by
  induction values with
  | nil =>
    obtain ⟨value, hMem, -⟩ := h
    cases hMem
  | cons first others ih =>
    by_cases hFirst : Holds first
    · exact ⟨[], first, others, rfl, hFirst, fun _ hMem => absurd hMem List.not_mem_nil⟩
    · obtain ⟨value, hMem, hValue⟩ := h
      rcases List.mem_cons.mp hMem with rfl | hMem
      · exact absurd hValue hFirst
      · obtain ⟨front, found, back, hFound⟩ := ih ⟨value, hMem, hValue⟩
        refine ⟨first :: front, found, back, ?_, hFound.holds, ?_⟩
        · rw [hFound.split, List.cons_append]
        · exact List.forall_mem_cons.mpr ⟨hFirst, hFound.before⟩

namespace FirstWith

variable {Holds : α → Prop} {values front back : List α} {value : α}

theorem replace (h : FirstWith Holds values front value back) (changed : α) (hChanged : Holds changed) :
    FirstWith Holds (front ++ changed :: back) front changed back :=
  ⟨rfl, hChanged, h.before⟩

theorem modify_eq (h : FirstWith Holds values front value back) (change : α → α) :
    values.modify front.length change = front ++ change value :: back := by
  rw [h.split, List.modify_eq_take_cons_drop (by simp)]
  simp

/-- The search through the values with their places. -/
theorem find?_zipIdx (h : FirstWith Holds values front value back) (test : α × Nat → Bool)
    (hTest : ∀ value index, test (value, index) = true ↔ Holds value) :
    values.zipIdx.find? test = some (value, front.length) := by
  have hNone : front.zipIdx.find? test = none := by
    rw [List.find?_eq_none]
    rintro ⟨other, index⟩ hMem hHolds
    exact h.before other (List.fst_mem_of_mem_zipIdx hMem) ((hTest other index).mp hHolds)
  have hFound : test (value, front.length) = true := (hTest value front.length).mpr h.holds
  rw [h.split, List.zipIdx_append, List.find?_append, hNone, Option.none_or, Nat.zero_add, List.zipIdx_cons,
    List.find?_cons_of_pos hFound]

end FirstWith

/-! ## Aggregates of a context -/

namespace BoundedContext

/-- The first aggregate called `name`, those of the context itself before those of its modules; the context with
something else in its place; and the place. -/
inductive FirstAggregate (context : BoundedContext) (name : String) :
    Aggregate → (Aggregate → BoundedContext) → Path → Prop
  | direct {front back : List Aggregate} {target : Aggregate}
      (h : FirstWith (·.name = name) context.aggregates front target back) :
      FirstAggregate context name target
        (fun changed => { context with aggregates := front ++ changed :: back })
        [(.aggregates, front.length)]
  | inModule {modulesFront modulesBack : List Module} {module : Module} {front back : List Aggregate}
      {target : Aggregate} (hDirect : ∀ aggregate ∈ context.aggregates, aggregate.name ≠ name)
      (hModule : FirstWith (fun module => ∃ aggregate ∈ module.aggregates, aggregate.name = name) context.modules
        modulesFront module modulesBack)
      (h : FirstWith (·.name = name) module.aggregates front target back) :
      FirstAggregate context name target
        (fun changed =>
          { context with
            modules := modulesFront ++ { module with aggregates := front ++ changed :: back } :: modulesBack })
        [(.modules, modulesFront.length), (.aggregates, front.length)]

variable {context : BoundedContext} {name : String} {target : Aggregate} {replace : Aggregate → BoundedContext}
  {place : Path}

theorem FirstAggregate.name_eq (h : context.FirstAggregate name target replace place) : target.name = name := by
  cases h with
  | direct h => exact h.holds
  | inModule hDirect hModule h => exact h.holds

theorem FirstAggregate.name_replace (h : context.FirstAggregate name target replace place) (changed : Aggregate) :
    (replace changed).name = context.name := by
  cases h <;> rfl

theorem FirstAggregate.replace_self (h : context.FirstAggregate name target replace place) :
    replace target = context := by
  cases h with
  | direct h => simp only [← h.split]
  | inModule hDirect hModule h => simp only [← h.split, ← hModule.split]

/-- What stands in the place of the first aggregate is the first itself if it is called the same. -/
theorem FirstAggregate.replaced (h : context.FirstAggregate name target replace place) {changed : Aggregate}
    (hName : changed.name = name) : (replace changed).FirstAggregate name changed replace place := by
  cases h with
  | direct h => exact .direct (h.replace changed hName)
  | @inModule modulesFront modulesBack module front back _ hDirect hModule h =>
    have hOwner := hModule.replace { module with aggregates := front ++ changed :: back }
      ⟨changed, List.mem_append_right _ List.mem_cons_self, hName⟩
    exact @inModule _ name modulesFront modulesBack { module with aggregates := front ++ changed :: back } front back
      changed hDirect hOwner (h.replace changed hName)

theorem FirstAggregate.findAggregate? (h : context.FirstAggregate name target replace place) :
    ∃ found, context.findAggregate? name = some found ∧ found.aggregate = target ∧ found.place.path = place ∧
      ∀ change, context.modifyAggregate found.place change = replace (change target) := by
  cases h with
  | @direct front back _ h =>
    refine ⟨⟨.direct front.length, none, target⟩, ?_, rfl, rfl, fun change => ?_⟩
    · have hFound := h.find?_zipIdx (fun entry => entry.1.name == name) fun _ _ => beq_iff_eq
      rw [BoundedContext.findAggregate?, placedAggregates, List.find?_append, List.find?_map]
      simp only [Function.comp_def, hFound, Option.map_some, Option.some_or]
    · rw [modifyAggregate, h.modify_eq]
  | @inModule modulesFront modulesBack module front back _ hDirect hModule h =>
    refine ⟨⟨.inModule modulesFront.length front.length, some module.name, target⟩, ?_, rfl, rfl, fun change => ?_⟩
    · have hNone : (context.aggregates.zipIdx.map
          fun entry => (⟨.direct entry.2, none, entry.1⟩ : PlacedAggregate)).find?
          (fun placed => placed.aggregate.name == name) = none := by
        rw [List.find?_eq_none]
        intro placed hMem hName
        obtain ⟨entry, hEntry, rfl⟩ := List.mem_map.mp hMem
        exact hDirect _ (List.fst_mem_of_mem_zipIdx hEntry) (beq_iff_eq.mp hName)
      have hBefore : modulesFront.zipIdx.findSome? (fun entry =>
          (entry.1.placedAggregates entry.2).find? fun placed => placed.aggregate.name == name) = none := by
        rw [List.findSome?_eq_none_iff]
        rintro ⟨other, index⟩ hOther
        rw [List.find?_eq_none]
        intro placed hMem hName
        obtain ⟨entry, hEntry, rfl⟩ := List.mem_map.mp hMem
        exact hModule.before other (List.fst_mem_of_mem_zipIdx hOther)
          ⟨entry.1, List.fst_mem_of_mem_zipIdx hEntry, beq_iff_eq.mp hName⟩
      have hFound := h.find?_zipIdx (fun entry => entry.1.name == name) fun _ _ => beq_iff_eq
      rw [BoundedContext.findAggregate?, placedAggregates, List.find?_append, hNone, Option.none_or,
        List.find?_flatMap, hModule.split, List.zipIdx_append, List.findSome?_append, hBefore, Option.none_or,
        Nat.zero_add, List.zipIdx_cons, List.findSome?_cons, Module.placedAggregates, List.find?_map]
      simp only [Function.comp_def, hFound, Option.map_some]
    · rw [modifyAggregate, hModule.modify_eq, h.modify_eq]

theorem exists_firstAggregate (h : name ∈ context.aggregateList.map (·.name)) :
    ∃ target replace place, context.FirstAggregate name target replace place := by
  by_cases hDirect : ∃ aggregate ∈ context.aggregates, aggregate.name = name
  · obtain ⟨front, target, back, hFirst⟩ := exists_firstWith hDirect
    exact ⟨_, _, _, .direct hFirst⟩
  · have hModule : ∃ module ∈ context.modules, ∃ aggregate ∈ module.aggregates, aggregate.name = name := by
      obtain ⟨aggregate, hMem, hName⟩ := List.mem_map.mp h
      rcases List.mem_append.mp hMem with hOwn | hOther
      · exact absurd ⟨aggregate, hOwn, hName⟩ hDirect
      · obtain ⟨module, hModule, hMem⟩ := List.mem_flatMap.mp hOther
        exact ⟨module, hModule, aggregate, hMem, hName⟩
    obtain ⟨modulesFront, module, modulesBack, hFirstModule⟩ := exists_firstWith hModule
    obtain ⟨front, target, back, hFirst⟩ := exists_firstWith hFirstModule.holds
    refine ⟨_, _, _, .inModule (fun aggregate hMem hName => hDirect ⟨aggregate, hMem, hName⟩) hFirstModule hFirst⟩

end BoundedContext

/-! ## Aggregates of a model -/

namespace Model

/-- The first aggregate called `aggregate` of the first context called `context`. -/
inductive FirstAggregate (model : Model) (context aggregate : String) : Aggregate → (Aggregate → Model) → Path → Prop
  | mk {front back : List BoundedContext} {owner : BoundedContext} {target : Aggregate}
      {replace : Aggregate → BoundedContext} {place : Path}
      (hOwner : FirstWith (·.name = context) model.boundedContexts front owner back)
      (h : owner.FirstAggregate aggregate target replace place) :
      FirstAggregate model context aggregate target
        (fun changed => { model with boundedContexts := front ++ replace changed :: back })
        ((.boundedContexts, front.length) :: place)

variable {model : Model} {context aggregate name : String} {target : Aggregate} {replace : Aggregate → Model}
  {place : Path}

theorem findContext?_of_firstWith {front back : List BoundedContext} {owner : BoundedContext}
    (h : FirstWith (·.name = name) model.boundedContexts front owner back) :
    model.findContext? name = some ⟨front.length, owner⟩ := by
  have hFound := h.find?_zipIdx (fun entry => entry.1.name == name) fun _ _ => beq_iff_eq
  rw [findContext?, placedContexts, List.find?_map]
  simp only [Function.comp_def, hFound, Option.map_some]

theorem exists_firstContext {placed : PlacedContext} (h : model.findContext? name = some placed) :
    ∃ front back, FirstWith (·.name = name) model.boundedContexts front placed.context back ∧
      placed.index = front.length := by
  obtain ⟨hName, -⟩ := findContext?_eq_some h
  have hSome : ∃ other ∈ model.boundedContexts, other.name = name := ⟨placed.context, mem_of_findContext? h, hName⟩
  obtain ⟨front, owner, back, hFirst⟩ := exists_firstWith hSome
  rw [findContext?_of_firstWith hFirst] at h
  cases h
  exact ⟨front, back, hFirst, rfl⟩

theorem FirstAggregate.replaced (h : model.FirstAggregate context aggregate target replace place)
    {changed : Aggregate} (hName : changed.name = target.name) :
    (replace changed).FirstAggregate context aggregate changed replace place := by
  cases h with
  | @mk front back owner _ replaceIn _ hOwner h =>
    have hSame := hOwner.replace (replaceIn changed) ((h.name_replace changed).trans hOwner.holds)
    exact .mk hSame (h.replaced (hName.trans h.name_eq))

theorem FirstAggregate.replace_self (h : model.FirstAggregate context aggregate target replace place) :
    replace target = model := by
  cases h with
  | mk hOwner h => simp only [h.replace_self, ← hOwner.split]

theorem FirstAggregate.insert_eq (h : model.FirstAggregate context aggregate target replace place)
    (member : Member) : model.insert context aggregate member =
      .ok (replace (target.append member), place ++ [(member.kind.field, (member.kind.names target).length)]) := by
  cases h with
  | mk hOwner h =>
    obtain ⟨found, hFound, rfl, rfl, hModify⟩ := h.findAggregate?
    have hTarget := requireAggregate_eq_ok.mpr ⟨findContext?_of_firstWith hOwner, hFound⟩
    refine bind_eq_ok.mpr ⟨_, hTarget, ?_⟩
    simp only [modifyContext, hOwner.modify_eq, hModify]
    rfl

theorem exists_firstAggregate {placed : PlacedContext} {found : PlacedAggregate}
    (hContext : model.findContext? context = some placed)
    (hFound : placed.context.findAggregate? aggregate = some found) :
    ∃ target replace place, model.FirstAggregate context aggregate target replace place := by
  obtain ⟨front, back, hOwner, -⟩ := exists_firstContext hContext
  have hHas : placed.context.hasAggregate aggregate = true := by
    rw [BoundedContext.hasAggregate, hFound, Option.isSome_some]
  obtain ⟨target, replace, place, hFirst⟩ := BoundedContext.exists_firstAggregate (hasAggregate_iff.mp hHas)
  exact ⟨_, _, _, .mk hOwner hFirst⟩

end Model

end DomainAtlas
