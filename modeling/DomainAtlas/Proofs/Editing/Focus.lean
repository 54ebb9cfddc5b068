import DomainAtlas.Editing.Session
import DomainAtlas.Proofs.Editing.Targets

/-! # Lookups among elements that can be changed

An edit is checked on the contents of a session and carried out on the elements: the two look for their target
separately. Both mean the first of the name. A lookup among the elements finds it exactly if a lookup in the contents
does, and what is put back in its place shows in the contents there and nowhere else.
-/
set_option autoImplicit false

namespace DomainAtlas

variable {α β τ : Type}

theorem FirstWith.map {Holds : α → Prop} {HoldsThere : β → Prop} {values front back : List α} {value : α}
    (h : FirstWith Holds values front value back) {f : α → β} (hSame : ∀ value, HoldsThere (f value) ↔ Holds value) :
    FirstWith HoldsThere (values.map f) (front.map f) (f value) (back.map f) where
  split := by rw [h.split, List.map_append, List.map_cons]
  holds := (hSame value).mpr h.holds
  before := List.forall_mem_map.mpr fun other hOther hHolds => h.before other hOther ((hSame other).mp hHolds)

/-! ## The first part of a list -/

namespace Focus

variable {inner? : τ → Option (Focus τ α)} {test : α → Bool}

theorem first?_eq_none (values : List τ) : first? inner? values = none ↔ ∀ value ∈ values, inner? value = none := by
  induction values with
  | nil => simp [first?]
  | cons value values ih =>
    rw [first?, List.forall_mem_cons]
    cases inner? value with
    | none => simpa using ih
    | some focus => simp

theorem first?_of_firstWith {values front back : List τ} {value : τ} {focus : Focus τ α}
    (h : FirstWith (fun value => ∃ focus, inner? value = some focus) values front value back)
    (hFocus : inner? value = some focus) :
    first? inner? values = some ⟨focus.value, fun changed => front ++ focus.put changed :: back⟩ := by
  obtain ⟨rfl, -, hBefore⟩ := h
  induction front with
  | nil => simp only [List.nil_append, first?, hFocus]
  | cons other front ih =>
    obtain ⟨hOther, hOthers⟩ := List.forall_mem_cons.mp hBefore
    have hNone : inner? other = none := Option.eq_none_iff_forall_ne_some.mpr fun focus hSome => hOther ⟨focus, hSome⟩
    simp only [List.cons_append, first?, hNone, ih hOthers, Option.map_some]

theorem exists_content?_iff (element : Identified α) :
    (∃ focus, content? test element = some focus) ↔ test element.value = true := by
  unfold content?
  split <;> simp_all

theorem first?_content?_eq_none (elements : List (Identified α)) :
    first? (content? test) elements = none ↔ ∀ element ∈ elements, test element.value = false := by
  rw [first?_eq_none]
  refine forall₂_congr fun element _ => ?_
  rw [Option.eq_none_iff_forall_ne_some, ← not_exists, exists_content?_iff, Bool.not_eq_true]

theorem first?_content?_of_firstWith {elements front back : List (Identified α)} {element : Identified α}
    (h : FirstWith (fun element => test element.value = true) elements front element back) :
    first? (content? test) elements =
      some ⟨element.value, fun changed => front ++ { element with value := changed } :: back⟩ :=
  first?_of_firstWith ⟨h.split, (exists_content?_iff element).mpr h.holds,
    fun other hOther hFound => h.before other hOther ((exists_content?_iff other).mp hFound)⟩ (if_pos h.holds)

end Focus

theorem firstWith_beq_iff {nameOf : α → String} {name : String} {values front back : List α} {value : α} :
    FirstWith (fun value => (nameOf value == name) = true) values front value back ↔
      FirstWith (fun value => nameOf value = name) values front value back := by
  simp only [beq_iff_eq]

/-- Either no value has the name, or one is the first that has it. -/
theorem forall_ne_or_exists_firstWith (nameOf : α → String) (name : String) (values : List α) :
    (∀ value ∈ values, nameOf value ≠ name) ∨
      ∃ front value back, FirstWith (fun value => nameOf value = name) values front value back := by
  by_cases hSome : ∃ value ∈ values, nameOf value = name
  · exact .inr (exists_firstWith hSome)
  · exact .inl fun value hMem hName => hSome ⟨value, hMem, hName⟩

variable {name : String}

/-! ## Contexts -/

namespace TrackedModel

variable {model : TrackedModel}

theorem context?_of_firstWith {front back : List (Identified TrackedContext)} {owner : Identified TrackedContext}
    (h : FirstWith (·.value.name = name) model.boundedContexts front owner back) :
    model.context? name = some ⟨owner.value,
      fun changed => { model with boundedContexts := front ++ { owner with value := changed } :: back }⟩ := by
  rw [context?, Focus.first?_content?_of_firstWith (firstWith_beq_iff.mpr h)]
  rfl

theorem firstWith_contents {front back : List (Identified TrackedContext)} {owner : Identified TrackedContext}
    (h : FirstWith (·.value.name = name) model.boundedContexts front owner back) :
    FirstWith (·.name = name) model.contents.boundedContexts (front.map (·.value.contents)) owner.value.contents
      (back.map (·.value.contents)) :=
  FirstWith.map h fun _ => Iff.rfl

theorem findContext?_contents {front back : List (Identified TrackedContext)} {owner : Identified TrackedContext}
    (h : FirstWith (·.value.name = name) model.boundedContexts front owner back) :
    model.contents.findContext? name = some ⟨front.length, owner.value.contents⟩ := by
  rw [Model.findContext?_of_firstWith (firstWith_contents h), List.length_map]

/-- What is put back in the place of a context is the change at its index in the contents. -/
theorem contents_put {front back : List (Identified TrackedContext)} {owner : Identified TrackedContext}
    (h : FirstWith (·.value.name = name) model.boundedContexts front owner back) {changed : TrackedContext}
    {change : BoundedContext → BoundedContext} (hChange : changed.contents = change owner.value.contents) :
    ({ model with boundedContexts := front ++ { owner with value := changed } :: back } : TrackedModel).contents =
      model.contents.modifyContext front.length change := by
  have hModify := (firstWith_contents h).modify_eq change
  rw [List.length_map] at hModify
  rw [Model.modifyContext, hModify, ← hChange]
  simp only [contents, List.map_append, List.map_cons]

/-- Both lookups of a context fail, or both find the first of the name. -/
theorem context?_cases (model : TrackedModel) (name : String) :
    (model.context? name = none ∧ model.contents.findContext? name = none) ∨
      ∃ front owner back, FirstWith (·.value.name = name) model.boundedContexts front owner back := by
  refine (forall_ne_or_exists_firstWith (·.value.name) name model.boundedContexts).imp_left fun hNone => ⟨?_, ?_⟩
  · rw [context?, (Focus.first?_content?_eq_none model.boundedContexts).mpr, Option.map_none]
    exact fun owner hOwner => beq_eq_false_iff_ne.mpr (hNone owner hOwner)
  · refine Option.eq_none_iff_forall_ne_some.mpr fun placed hFound => ?_
    obtain ⟨owner, hOwner, hContext⟩ := List.mem_map.mp (mem_of_findContext? hFound)
    obtain ⟨hName, -⟩ := findContext?_eq_some hFound
    rw [← hContext] at hName
    exact hNone owner hOwner hName

end TrackedModel

/-! ## Modules -/

namespace TrackedContext

variable {context : TrackedContext}

theorem module?_of_firstWith {front back : List (Identified TrackedModule)} {module : Identified TrackedModule}
    (h : FirstWith (·.value.name = name) context.modules front module back) :
    context.module? name = some ⟨module.value,
      fun changed => { context with modules := front ++ { module with value := changed } :: back }⟩ := by
  rw [module?, Focus.first?_content?_of_firstWith (firstWith_beq_iff.mpr h)]
  rfl

theorem firstWith_modules {front back : List (Identified TrackedModule)} {module : Identified TrackedModule}
    (h : FirstWith (·.value.name = name) context.modules front module back) :
    FirstWith (·.name = name) context.contents.modules (front.map (·.value.contents)) module.value.contents
      (back.map (·.value.contents)) :=
  FirstWith.map h fun _ => Iff.rfl

theorem findModule?_contents {front back : List (Identified TrackedModule)} {module : Identified TrackedModule}
    (h : FirstWith (·.value.name = name) context.modules front module back) :
    (context.contents.modules.zipIdx.find? fun entry => entry.1.name == name) =
      some (module.value.contents, front.length) := by
  rw [(firstWith_modules h).find?_zipIdx _ fun _ _ => beq_iff_eq, List.length_map]

theorem contents_putModule {front back : List (Identified TrackedModule)} {module : Identified TrackedModule}
    (h : FirstWith (·.value.name = name) context.modules front module back) {changed : TrackedModule}
    {change : Module → Module} (hChange : changed.contents = change module.value.contents) :
    ({ context with modules := front ++ { module with value := changed } :: back } : TrackedContext).contents =
      { context.contents with modules := context.contents.modules.modify front.length change } := by
  have hModify := (firstWith_modules h).modify_eq change
  rw [List.length_map] at hModify
  rw [hModify, ← hChange]
  simp only [contents, List.map_append, List.map_cons]

theorem module?_cases (context : TrackedContext) (name : String) :
    (context.module? name = none ∧
        (context.contents.modules.zipIdx.find? fun entry => entry.1.name == name) = none) ∨
      ∃ front module back, FirstWith (·.value.name = name) context.modules front module back := by
  refine (forall_ne_or_exists_firstWith (·.value.name) name context.modules).imp_left fun hNone => ⟨?_, ?_⟩
  · rw [module?, (Focus.first?_content?_eq_none context.modules).mpr, Option.map_none]
    exact fun module hModule => beq_eq_false_iff_ne.mpr (hNone module hModule)
  · refine List.find?_eq_none.mpr fun entry hEntry hName => ?_
    obtain ⟨module, hModule, hContents⟩ := List.mem_map.mp (List.fst_mem_of_mem_zipIdx hEntry)
    rw [← hContents] at hName
    exact hNone module hModule (beq_iff_eq.mp hName)

/-! ## Aggregates -/

/-- The first aggregate called `name`, those of the context itself before those of its modules; the context with
something else in the aggregate; and the place. -/
inductive FirstAggregate (context : TrackedContext) (name : String) :
    TrackedAggregate → (TrackedAggregate → TrackedContext) → Path → Prop
  | direct {front back : List (Identified TrackedAggregate)} {target : Identified TrackedAggregate}
      (h : FirstWith (·.value.name = name) context.aggregates front target back) :
      FirstAggregate context name target.value
        (fun changed => { context with aggregates := front ++ { target with value := changed } :: back })
        [(.aggregates, front.length)]
  | inModule {modulesFront modulesBack : List (Identified TrackedModule)} {module : Identified TrackedModule}
      {front back : List (Identified TrackedAggregate)} {target : Identified TrackedAggregate}
      (hDirect : ∀ aggregate ∈ context.aggregates, aggregate.value.name ≠ name)
      (hModule : FirstWith (fun module => ∃ aggregate ∈ module.value.aggregates, aggregate.value.name = name)
        context.modules modulesFront module modulesBack)
      (h : FirstWith (·.value.name = name) module.value.aggregates front target back) :
      FirstAggregate context name target.value
        (fun changed =>
          { context with
            modules := modulesFront ++ { module with
              value := { module.value with
                aggregates := front ++ { target with value := changed } :: back } } :: modulesBack })
        [(.modules, modulesFront.length), (.aggregates, front.length)]

variable {target : TrackedAggregate} {replace : TrackedAggregate → TrackedContext} {place : Path}

theorem FirstAggregate.name_eq (h : context.FirstAggregate name target replace place) : target.name = name := by
  cases h with
  | direct h => exact h.holds
  | inModule hDirect hModule h => exact h.holds

theorem FirstAggregate.name_replace (h : context.FirstAggregate name target replace place)
    (changed : TrackedAggregate) : (replace changed).name = context.name := by
  cases h <;> rfl

theorem FirstAggregate.replace_self (h : context.FirstAggregate name target replace place) :
    replace target = context := by
  cases h with
  | direct h => simp only [← h.split]
  | inModule hDirect hModule h => simp only [← h.split, ← hModule.split]

/-- What stands in the place of the first aggregate is the first itself if it is called the same. -/
theorem FirstAggregate.replaced (h : context.FirstAggregate name target replace place) {changed : TrackedAggregate}
    (hName : changed.name = name) : (replace changed).FirstAggregate name changed replace place := by
  cases h with
  | @direct front back target h =>
    have hSame := h.replace { target with value := changed } hName
    exact @direct { context with aggregates := front ++ { target with value := changed } :: back } name _ _ _ hSame
  | @inModule modulesFront modulesBack module front back target hDirect hModule h =>
    let owner : Identified TrackedModule := { module with
      value := { module.value with aggregates := front ++ { target with value := changed } :: back } }
    have hOwner := hModule.replace owner ⟨_, List.mem_append_right _ List.mem_cons_self, hName⟩
    have hSame := h.replace { target with value := changed } hName
    exact @inModule { context with modules := modulesFront ++ owner :: modulesBack } name _ _ owner _ _ _ hDirect hOwner
      hSame

theorem aggregate?_of_firstWith {module : TrackedModule} {front back : List (Identified TrackedAggregate)}
    {target : Identified TrackedAggregate}
    (h : FirstWith (·.value.name = name) module.aggregates front target back) :
    module.aggregate? name = some ⟨target.value,
      fun changed => { module with aggregates := front ++ { target with value := changed } :: back }⟩ := by
  rw [TrackedModule.aggregate?, Focus.first?_content?_of_firstWith (firstWith_beq_iff.mpr h)]
  rfl

theorem exists_aggregateIn?_iff (module : Identified TrackedModule) :
    (∃ focus, aggregate?.aggregateIn? name module = some focus) ↔
      ∃ aggregate ∈ module.value.aggregates, aggregate.value.name = name := by
  constructor
  · rintro ⟨focus, hFocus⟩
    refine (forall_ne_or_exists_firstWith (·.value.name) name module.value.aggregates).elim (fun hNone => ?_) ?_
    · rw [aggregate?.aggregateIn?, TrackedModule.aggregate?, (Focus.first?_content?_eq_none _).mpr] at hFocus
      · cases hFocus
      · exact fun aggregate hMem => beq_eq_false_iff_ne.mpr (hNone aggregate hMem)
    · rintro ⟨front, target, back, h⟩
      refine ⟨target, ?_, h.holds⟩
      rw [h.split]
      exact List.mem_append_right _ List.mem_cons_self
  · intro hSome
    obtain ⟨front, target, back, h⟩ := exists_firstWith hSome
    rw [aggregate?.aggregateIn?, aggregate?_of_firstWith h]
    exact ⟨_, rfl⟩

theorem FirstAggregate.aggregate? (h : context.FirstAggregate name target replace place) :
    context.aggregate? name = some ⟨target, replace⟩ := by
  cases h with
  | direct h =>
    rw [TrackedContext.aggregate?, Focus.first?_content?_of_firstWith (firstWith_beq_iff.mpr h)]
    rfl
  | inModule hDirect hModule h =>
    have hOwn : Focus.first? (Focus.content? (·.name == name)) context.aggregates = none :=
      (Focus.first?_content?_eq_none _).mpr fun aggregate hMem => beq_eq_false_iff_ne.mpr (hDirect aggregate hMem)
    have hInner := aggregate?_of_firstWith h
    rw [TrackedContext.aggregate?, hOwn, Option.map_none, Option.none_or, Focus.first?_of_firstWith
      ⟨hModule.split, (exists_aggregateIn?_iff _).mpr hModule.holds,
        fun other hOther hFound => hModule.before other hOther ((exists_aggregateIn?_iff other).mp hFound)⟩
      (by rw [aggregate?.aggregateIn?, hInner, Option.map_some])]
    rfl

/-- The contents have the first aggregate of the name at the same place. -/
theorem FirstAggregate.contents (h : context.FirstAggregate name target replace place) :
    ∃ replaceContents, context.contents.FirstAggregate name target.contents replaceContents place ∧
      ∀ changed, (replace changed).contents = replaceContents changed.contents := by
  cases h with
  | @direct front back target h =>
    have hContents : FirstWith (·.name = name) context.contents.aggregates (front.map (·.value.contents))
        target.value.contents (back.map (·.value.contents)) := FirstWith.map h fun _ => Iff.rfl
    have hDirect := BoundedContext.FirstAggregate.direct hContents
    rw [List.length_map] at hDirect
    refine ⟨_, hDirect, fun changed => ?_⟩
    simp only [TrackedContext.contents, List.map_append, List.map_cons]
  | @inModule modulesFront modulesBack module front back target hDirect hModule h =>
    have hContents : FirstWith (·.name = name) module.value.contents.aggregates (front.map (·.value.contents))
        target.value.contents (back.map (·.value.contents)) := FirstWith.map h fun _ => Iff.rfl
    have hOwner : FirstWith (fun module => ∃ aggregate ∈ module.aggregates, aggregate.name = name)
        context.contents.modules (modulesFront.map (·.value.contents)) module.value.contents
        (modulesBack.map (·.value.contents)) := by
      refine FirstWith.map hModule fun other => ?_
      constructor
      · rintro ⟨contents, hContents, hName⟩
        obtain ⟨aggregate, hMem, rfl⟩ := List.mem_map.mp hContents
        exact ⟨aggregate, hMem, hName⟩
      · rintro ⟨aggregate, hMem, hName⟩
        exact ⟨_, List.mem_map_of_mem hMem, hName⟩
    have hOwn : ∀ aggregate ∈ context.contents.aggregates, aggregate.name ≠ name :=
      List.forall_mem_map.mpr fun aggregate hMem => hDirect aggregate hMem
    have hInModule := BoundedContext.FirstAggregate.inModule hOwn hOwner hContents
    rw [List.length_map, List.length_map] at hInModule
    refine ⟨_, hInModule, fun changed => ?_⟩
    simp only [TrackedContext.contents, TrackedModule.contents, List.map_append, List.map_cons]

theorem aggregate?_cases (context : TrackedContext) (name : String) :
    (context.aggregate? name = none ∧ context.contents.findAggregate? name = none) ∨
      ∃ target replace place, context.FirstAggregate name target replace place := by
  rcases forall_ne_or_exists_firstWith (·.value.name) name context.aggregates with hOwn | ⟨front, target, back, h⟩
  · by_cases hModule : ∃ module ∈ context.modules, ∃ aggregate ∈ module.value.aggregates, aggregate.value.name = name
    · obtain ⟨modulesFront, module, modulesBack, hFirst⟩ := exists_firstWith hModule
      obtain ⟨front, target, back, h⟩ := exists_firstWith hFirst.holds
      exact .inr ⟨_, _, _, .inModule hOwn hFirst h⟩
    · refine .inl ⟨?_, ?_⟩
      · have hNone : Focus.first? (aggregate?.aggregateIn? name) context.modules = none :=
          (Focus.first?_eq_none _).mpr fun module hMem => Option.eq_none_iff_forall_ne_some.mpr fun focus hFocus =>
            hModule ⟨module, hMem, (exists_aggregateIn?_iff module).mp ⟨focus, hFocus⟩⟩
        have hOwnNone : Focus.first? (Focus.content? (·.name == name)) context.aggregates = none :=
          (Focus.first?_content?_eq_none _).mpr fun aggregate hMem => beq_eq_false_iff_ne.mpr (hOwn aggregate hMem)
        rw [TrackedContext.aggregate?, hOwnNone, hNone]
        rfl
      · refine Option.eq_none_iff_forall_ne_some.mpr fun placed hFound => ?_
        have hHas : context.contents.hasAggregate name = true := by
          rw [BoundedContext.hasAggregate, hFound, Option.isSome_some]
        obtain ⟨aggregate, hMem, hName⟩ := List.mem_map.mp (hasAggregate_iff.mp hHas)
        rcases List.mem_append.mp hMem with hDirect | hInModule
        · obtain ⟨own, hOwnMem, rfl⟩ := List.mem_map.mp hDirect
          exact hOwn own hOwnMem hName
        · obtain ⟨contents, hContents, hAggregate⟩ := List.mem_flatMap.mp hInModule
          obtain ⟨module, hModuleMem, rfl⟩ := List.mem_map.mp hContents
          obtain ⟨inner, hInner, rfl⟩ := List.mem_map.mp hAggregate
          exact hModule ⟨module, hModuleMem, inner, hInner, hName⟩
  · exact .inr ⟨_, _, _, .direct h⟩

end TrackedContext

namespace TrackedModel

/-- The first aggregate called `aggregate` of the first context called `context`. -/
inductive FirstAggregate (model : TrackedModel) (context aggregate : String) :
    TrackedAggregate → (TrackedAggregate → TrackedModel) → Path → Prop
  | mk {front back : List (Identified TrackedContext)} {owner : Identified TrackedContext} {target : TrackedAggregate}
      {replace : TrackedAggregate → TrackedContext} {place : Path}
      (hOwner : FirstWith (·.value.name = context) model.boundedContexts front owner back)
      (h : owner.value.FirstAggregate aggregate target replace place) :
      FirstAggregate model context aggregate target
        (fun changed => { model with boundedContexts := front ++ { owner with value := replace changed } :: back })
        ((.boundedContexts, front.length) :: place)

variable {model : TrackedModel} {context aggregate : String} {target : TrackedAggregate}
  {replace : TrackedAggregate → TrackedModel} {place : Path}

theorem FirstAggregate.contents (h : model.FirstAggregate context aggregate target replace place) :
    ∃ replaceContents, model.contents.FirstAggregate context aggregate target.contents replaceContents place ∧
      ∀ changed, (replace changed).contents = replaceContents changed.contents := by
  obtain ⟨hOwner, h⟩ := h
  obtain ⟨replaceContents, hContents, hReplace⟩ := h.contents
  have hFirst := Model.FirstAggregate.mk (firstWith_contents hOwner) hContents
  rw [List.length_map] at hFirst
  refine ⟨_, hFirst, fun changed => ?_⟩
  simp only [TrackedModel.contents, List.map_append, List.map_cons, hReplace]

theorem FirstAggregate.replace_self (h : model.FirstAggregate context aggregate target replace place) :
    replace target = model := by
  obtain ⟨hOwner, h⟩ := h
  simp only [h.replace_self, ← hOwner.split]

theorem FirstAggregate.replaced (h : model.FirstAggregate context aggregate target replace place)
    {changed : TrackedAggregate} (hName : changed.name = target.name) :
    (replace changed).FirstAggregate context aggregate changed replace place := by
  cases h with
  | @mk front back owner _ replaceIn _ hOwner h =>
    let changedOwner : Identified TrackedContext := { owner with value := replaceIn changed }
    have hSame := hOwner.replace changedOwner ((h.name_replace changed).trans hOwner.holds)
    exact @mk { model with boundedContexts := front ++ changedOwner :: back } _ _ _ _ changedOwner _ _ _ hSame
      (h.replaced (hName.trans h.name_eq))

theorem exists_firstAggregate {placed : PlacedContext} {found : PlacedAggregate}
    (hContext : model.contents.findContext? context = some placed)
    (hFound : placed.context.findAggregate? aggregate = some found) :
    ∃ target replace place, model.FirstAggregate context aggregate target replace place := by
  rcases model.context?_cases context with ⟨-, hNone⟩ | ⟨front, owner, back, hOwner⟩
  · rw [hNone] at hContext
    cases hContext
  · rw [findContext?_contents hOwner] at hContext
    cases hContext
    rcases owner.value.aggregate?_cases aggregate with ⟨-, hNone⟩ | ⟨target, replace, place, h⟩
    · rw [hNone] at hFound
      cases hFound
    · exact ⟨_, _, _, .mk hOwner h⟩

end TrackedModel

/-! ## Paths -/

theorem mem_placesIn {field : Field} {inner : α → List (ElementId × Path)} (front back : List (Identified α))
    (element : Identified α) :
    (element.id, [(field, front.length)]) ∈ placesIn field inner (front ++ element :: back) := by
  refine List.mem_flatMap.mpr ⟨(element, front.length), ?_, List.mem_append_right _ (List.mem_singleton.mpr rfl)⟩
  rw [List.zipIdx_append, Nat.zero_add]
  exact List.mem_append_right _ List.mem_cons_self

theorem mem_placesIn_inside {field : Field} {inner : α → List (ElementId × Path)} (front back : List (Identified α))
    {element : Identified α} {id : ElementId} {path : Path} (h : (id, path) ∈ inner element.value) :
    (id, (field, front.length) :: path) ∈ placesIn field inner (front ++ element :: back) := by
  refine List.mem_flatMap.mpr ⟨(element, front.length), ?_, List.mem_append_left _ (List.mem_map_of_mem h)⟩
  rw [List.zipIdx_append, Nat.zero_add]
  exact List.mem_append_right _ List.mem_cons_self

theorem mem_leafPlaces {field : Field} (elements : List (Identified α)) (id : ElementId) (value : α) :
    (id, [(field, elements.length)]) ∈ leafPlaces field (elements ++ [⟨id, value⟩]) :=
  mem_placesIn elements [] ⟨id, value⟩

/-- What is appended to a list leaves the places in it. -/
theorem placesIn_subset_append (field : Field) (inner : α → List (ElementId × Path))
    (elements others : List (Identified α)) :
    placesIn field inner elements ⊆ placesIn field inner (elements ++ others) := by
  rw [placesIn, placesIn, List.zipIdx_append, List.flatMap_append]
  exact List.subset_append_left _ _

theorem mem_leafPlaces_append {field : Field} {elements : List (Identified α)} {place : ElementId × Path}
    (h : place ∈ leafPlaces field elements) (others : List (Identified α)) :
    place ∈ leafPlaces field (elements ++ others) :=
  placesIn_subset_append field _ elements others h

theorem TrackedContext.FirstAggregate.mem_places {context : TrackedContext} {target : TrackedAggregate}
    {replace : TrackedAggregate → TrackedContext} {place : Path}
    (h : context.FirstAggregate name target replace place) {changed : TrackedAggregate} {id : ElementId} {path : Path}
    (hPath : (id, path) ∈ changed.places) : (id, place ++ path) ∈ (replace changed).places := by
  cases h with
  | direct h => exact List.mem_append_left _ (mem_placesIn_inside _ _ hPath)
  | inModule hDirect hModule h =>
    exact List.mem_append_right _ (mem_placesIn_inside _ _ (mem_placesIn_inside _ _ hPath))

theorem TrackedModel.mem_places_inside {model : TrackedModel} {front back : List (Identified TrackedContext)}
    {owner : Identified TrackedContext} (hContexts : model.boundedContexts = front ++ owner :: back) {id : ElementId}
    {path : Path} (h : (id, path) ∈ owner.value.places) :
    (id, (Field.boundedContexts, front.length) :: path) ∈ model.places := by
  rw [places, hContexts]
  exact List.mem_append_right _ (mem_placesIn_inside front back h)

theorem TrackedModel.mem_places_of_map {model : TrackedModel} {map : Identified TrackedMap}
    (hMap : model.contextMap = some map) {place : ElementId × Path} (h : place ∈ map.value.places) :
    place ∈ model.places := by
  rw [places, hMap]
  exact List.mem_append_left _ h

theorem TrackedModel.FirstAggregate.mem_places {model : TrackedModel} {context aggregate : String}
    {target : TrackedAggregate} {replace : TrackedAggregate → TrackedModel} {place : Path}
    (h : model.FirstAggregate context aggregate target replace place) {changed : TrackedAggregate} {id : ElementId}
    {path : Path} (hPath : (id, path) ∈ changed.places) : (id, place ++ path) ∈ (replace changed).places := by
  obtain ⟨hOwner, h⟩ := h
  exact mem_places_inside rfl (h.mem_places hPath)

end DomainAtlas
