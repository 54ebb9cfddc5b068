import DomainAtlas.Proofs.Editing.Singly

/-! # Additions that do not meet

The lookups of an addition see names only, so that they find the same element before and after another addition, and
what they find has changed only if it is the aggregate that the other one adds to. Two additions to different lists
that bring no common name may thus be performed in either order: each has the same outcome, and the model is the same
in the end.
-/
set_option autoImplicit false

namespace DomainAtlas

/-! ## Changes at one place -/

section Lists

variable {α : Type}

theorem zipIdx_modify (values : List α) (index : Nat) (change : α → α) :
    (values.modify index change).zipIdx =
      values.zipIdx.map fun entry => if entry.2 = index then (change entry.1, entry.2) else entry := by
  refine List.ext_getElem? fun i => ?_
  rw [List.getElem?_zipIdx, List.getElem?_map, List.getElem?_zipIdx, List.getElem?_modify, Option.map_map,
    Option.map_eq_map, Option.map_map]
  refine congrArg (fun f => Option.map f values[i]?) (funext fun value => ?_)
  by_cases hIndex : index = i
  · simp [hIndex]
  · simp [hIndex, Ne.symm hIndex]

/-- Changes at two places commute, and so do changes at one place that commute with each other. -/
theorem modify_comm (values : List α) {i j : Nat} {f g : α → α} (h : i ≠ j ∨ ∀ value, f (g value) = g (f value)) :
    (values.modify i f).modify j g = (values.modify j g).modify i f := by
  by_cases hSame : i = j
  · subst hSame
    have hComm : g ∘ f = f ∘ g := funext fun value => ((h.resolve_left (absurd rfl)) value).symm
    rw [List.modify_modify_eq, List.modify_modify_eq, hComm]
  · exact List.modify_modify_ne f g values hSame

end Lists

namespace BoundedContext

variable {context : BoundedContext} {place other : AggregatePlace} {change next : Aggregate → Aggregate}

theorem placedAggregates_modifyAggregate (context : BoundedContext) (place : AggregatePlace)
    (change : Aggregate → Aggregate) :
    (context.modifyAggregate place change).placedAggregates = context.placedAggregates.map fun placed =>
      if placed.place = place then { placed with aggregate := change placed.aggregate } else placed := by
  cases place with
  | direct index =>
    rw [placedAggregates, placedAggregates, modifyAggregate, zipIdx_modify, List.map_append, List.map_map,
      List.map_map, List.map_flatMap]
    congr 1
    · refine List.map_congr_left fun entry _ => ?_
      by_cases hIndex : entry.2 = index <;> simp [hIndex]
    · refine List.flatMap_congr fun entry _ => ?_
      rw [Module.placedAggregates, List.map_map]
      exact List.map_congr_left fun _ _ => rfl
  | inModule module index =>
    rw [placedAggregates, placedAggregates, modifyAggregate, zipIdx_modify, List.map_append, List.map_map,
      List.flatMap_map, List.map_flatMap]
    congr 1
    refine List.flatMap_congr fun entry _ => ?_
    by_cases hModule : entry.2 = module
    · simp only [if_pos hModule, Module.placedAggregates, zipIdx_modify, List.map_map]
      refine List.map_congr_left fun inner _ => ?_
      by_cases hIndex : inner.2 = index <;> simp [hIndex, hModule]
    · simp only [if_neg hModule, Module.placedAggregates, List.map_map]
      refine List.map_congr_left fun inner _ => ?_
      simp [hModule]

theorem findAggregate?_modifyAggregate (hName : ∀ aggregate, (change aggregate).name = aggregate.name)
    (name : String) :
    (context.modifyAggregate place change).findAggregate? name =
      (context.findAggregate? name).map fun placed =>
        if placed.place = place then { placed with aggregate := change placed.aggregate } else placed := by
  rw [findAggregate?, placedAggregates_modifyAggregate, List.find?_map, findAggregate?]
  congr 2
  funext placed
  by_cases hPlace : placed.place = place <;> simp [hPlace, hName]

theorem modifyAggregate_comm
    (h : place ≠ other ∨ ∀ aggregate, change (next aggregate) = next (change aggregate)) :
    (context.modifyAggregate place change).modifyAggregate other next =
      (context.modifyAggregate other next).modifyAggregate place change := by
  cases place with
  | direct i =>
    cases other with
    | direct j =>
      have hIndex := h.imp_left fun hPlace (hSame : i = j) => hPlace (congrArg AggregatePlace.direct hSame)
      exact congrArg (fun aggregates => { context with aggregates }) (modify_comm context.aggregates hIndex)
    | inModule m j => rfl
  | inModule n i =>
    cases other with
    | direct j => rfl
    | inModule m j =>
      refine congrArg (fun modules => { context with modules }) (modify_comm context.modules ?_)
      by_cases hModule : n = m
      · refine .inr fun module => ?_
        have hIndex := h.imp_left fun hPlace (hSame : i = j) => hPlace (by rw [hModule, hSame])
        exact congrArg (fun aggregates => { module with aggregates }) (modify_comm module.aggregates hIndex).symm
      · exact .inl hModule

/-- The aggregate that stands at a place. -/
def aggregateAt? (context : BoundedContext) : AggregatePlace → Option Aggregate
  | .direct index => context.aggregates[index]?
  | .inModule module index => context.modules[module]?.bind fun found => found.aggregates[index]?

theorem aggregateAt?_of_mem {placed : PlacedAggregate} (h : placed ∈ context.placedAggregates) :
    context.aggregateAt? placed.place = some placed.aggregate := by
  rcases List.mem_append.mp h with hDirect | hInModule
  · obtain ⟨⟨aggregate, index⟩, hMem, rfl⟩ := List.mem_map.mp hDirect
    exact List.mk_mem_zipIdx_iff_getElem?.mp hMem
  · obtain ⟨⟨module, position⟩, hModule, hPlaced⟩ := List.mem_flatMap.mp hInModule
    obtain ⟨⟨aggregate, index⟩, hMem, rfl⟩ := List.mem_map.mp hPlaced
    rw [aggregateAt?, List.mk_mem_zipIdx_iff_getElem?.mp hModule, Option.bind_some]
    exact List.mk_mem_zipIdx_iff_getElem?.mp hMem

end BoundedContext

namespace Model

/-- What is found at `index` and `place` after the aggregate there has been changed. -/
def changedTarget (index : Nat) (place : AggregatePlace) (change : Aggregate → Aggregate)
    (found : PlacedContext × PlacedAggregate) : PlacedContext × PlacedAggregate :=
  if found.1.index = index then
    ({ found.1 with context := found.1.context.modifyAggregate place change },
      if found.2.place = place then { found.2 with aggregate := change found.2.aggregate } else found.2)
  else found

def changeAggregate (model : Model) (index : Nat) (place : AggregatePlace) (change : Aggregate → Aggregate) : Model :=
  model.modifyContext index fun context => context.modifyAggregate place change

variable {model : Model} {index : Nat} {place : AggregatePlace} {change : Aggregate → Aggregate}
  {context aggregate : String}

theorem findContext?_changeAggregate (name : String) :
    (model.changeAggregate index place change).findContext? name =
      (model.findContext? name).map fun placed =>
        if placed.index = index then { placed with context := placed.context.modifyAggregate place change }
        else placed := by
  have hPlaced : (model.changeAggregate index place change).placedContexts =
      model.placedContexts.map fun placed =>
        if placed.index = index then { placed with context := placed.context.modifyAggregate place change }
        else placed := by
    rw [placedContexts, placedContexts, changeAggregate, modifyContext, zipIdx_modify, List.map_map, List.map_map]
    refine List.map_congr_left fun entry _ => ?_
    by_cases hIndex : entry.2 = index <;> simp [hIndex]
  rw [findContext?, hPlaced, List.find?_map, findContext?]
  congr 2
  funext placed
  by_cases hIndex : placed.index = index <;> simp [hIndex, name_modifyAggregate]

/-- A change that keeps names is seen where it was made, and nowhere else. -/
theorem requireAggregate_changeAggregate (hName : ∀ aggregate, (change aggregate).name = aggregate.name) :
    (model.changeAggregate index place change).requireAggregate context aggregate =
      changedTarget index place change <$> model.requireAggregate context aggregate := by
  unfold requireAggregate requireContext
  rw [findContext?_changeAggregate]
  cases model.findContext? context with
  | none => rfl
  | some placed =>
    by_cases hIndex : placed.index = index
    · simp only [Option.map_some, if_pos hIndex, bind, Except.bind,
        BoundedContext.findAggregate?_modifyAggregate hName]
      cases placed.context.findAggregate? aggregate with
      | none => rfl
      | some found => simp [changedTarget, hIndex, Functor.map, Except.map, pure, Except.pure]
    · simp only [Option.map_some, if_neg hIndex, bind, Except.bind]
      cases placed.context.findAggregate? aggregate with
      | none => rfl
      | some found => simp [changedTarget, hIndex, Functor.map, Except.map, pure, Except.pure]

theorem insert_eq_map (member : Member) :
    model.insert context aggregate member =
      (fun found : PlacedContext × PlacedAggregate =>
        (model.changeAggregate found.1.index found.2.place fun changed => changed.append member,
          found.1.path ++ found.2.place.path ++
            [(member.kind.field, (member.kind.names found.2.aggregate).length)])) <$>
        model.requireAggregate context aggregate := by
  unfold insert
  cases model.requireAggregate context aggregate with
  | error rejection => rfl
  | ok found => rfl

/-- Two lookups that end at one place were for the same names. -/
theorem names_eq_of_place_eq {context' aggregate' : String} {found found' : PlacedContext × PlacedAggregate}
    (h : model.requireAggregate context aggregate = .ok found)
    (h' : model.requireAggregate context' aggregate' = .ok found') (hIndex : found.1.index = found'.1.index)
    (hPlace : found.2.place = found'.2.place) : context = context' ∧ aggregate = aggregate' := by
  obtain ⟨hContext, hAggregate⟩ := requireAggregate_eq_ok.mp h
  obtain ⟨hContext', hAggregate'⟩ := requireAggregate_eq_ok.mp h'
  have hMem := mem_placedContexts.mp (List.mem_of_find?_eq_some hContext)
  have hMem' := mem_placedContexts.mp (List.mem_of_find?_eq_some hContext')
  have hSame : found.1.context = found'.1.context := by
    rw [List.mk_mem_zipIdx_iff_getElem?] at hMem hMem'
    exact Option.some.inj (hMem.symm.trans ((congrArg _ hIndex).trans hMem'))
  obtain ⟨hName, hPlaced⟩ := findAggregate?_eq_some hAggregate
  obtain ⟨hName', hPlaced'⟩ := findAggregate?_eq_some hAggregate'
  have hAt := BoundedContext.aggregateAt?_of_mem hPlaced
  have hAt' := BoundedContext.aggregateAt?_of_mem hPlaced'
  rw [hSame, hPlace, hAt'] at hAt
  rw [← (findContext?_eq_some hContext).1, ← (findContext?_eq_some hContext').1, hSame, ← hName, ← hName',
    Option.some.inj hAt]
  exact ⟨rfl, rfl⟩

end Model

/-! ## Two additions -/

structure Addition where
  context : String
  aggregate : String
  member : Member

namespace Addition

def edit (addition : Addition) : Edit :=
  .member addition.context addition.aggregate addition.member

/-- The list that the addition is for: that of a kind, in an aggregate. -/
def list (addition : Addition) : String × String × MemberKind :=
  (addition.context, addition.aggregate, addition.member.kind)

/-- The additions are for different lists and do not bring the same name, but for services, whose names are their
own. -/
structure Independent (first second : Addition) : Prop where
  lists : first.list ≠ second.list
  names : Text.wordOf first.member.name ≠ Text.wordOf second.member.name ∨ first.member.kind = .service ∨
    second.member.kind = .service

theorem Independent.symm {first second : Addition} (h : first.Independent second) : second.Independent first :=
  ⟨h.lists.symm, h.names.imp Ne.symm Or.symm⟩

end Addition

theorem names_append_of_ne {member : Member} {kind : MemberKind} (target : Aggregate) (h : member.kind ≠ kind) :
    kind.names (target.append member) = kind.names target := by
  cases member <;> cases kind <;> first | rfl | exact absurd rfl h

theorem append_comm {first second : Member} (h : first.kind ≠ second.kind) (target : Aggregate) :
    (target.append first).append second = (target.append second).append first := by
  cases first <;> cases second <;> first | rfl | exact absurd rfl h

namespace Model

/-- What an edit answers: the paths of the new elements, or why it is refused. -/
def outcome (model : Model) (edit : Edit) : Except EditError (List Path) :=
  Prod.snd <$> model.edit edit

/-- The addition is accepted: `prepared` is to be added to what is `found`. -/
structure Admits (model : Model) (addition : Addition) (prepared : Member)
    (found : PlacedContext × PlacedAggregate) : Prop where
  checks : model.prepare addition.context addition.aggregate [] addition.member = .ok prepared
  lookup : model.requireAggregate addition.context addition.aggregate = .ok found

/-- The model with `prepared` added to what was `found`. -/
def grown (model : Model) (prepared : Member) (found : PlacedContext × PlacedAggregate) : Model :=
  model.changeAggregate found.1.index found.2.place fun changed => changed.append prepared

def grownPath (prepared : Member) (found : PlacedContext × PlacedAggregate) : Path :=
  found.1.path ++ found.2.place.path ++ [(prepared.kind.field, (prepared.kind.names found.2.aggregate).length)]

variable {model : Model} {first second : Addition} {prepared prepared' : Member}
  {found found' : PlacedContext × PlacedAggregate}

namespace Admits

theorem kind_eq (h : model.Admits first prepared found) : prepared.kind = first.member.kind :=
  (normalizesTo_of_prepare h.checks).kind_eq

theorem name_eq (h : model.Admits first prepared found) : prepared.name = Text.wordOf first.member.name := by
  obtain ⟨_, _, _, hName, -⟩ := prepare_eq_ok h.checks
  exact (checkedName_eq_ok.mp hName).1

theorem addMember_eq (h : model.Admits first prepared found) :
    model.addMember first.context first.aggregate first.member =
      .ok (model.grown prepared found, grownPath prepared found) := by
  rw [addMember, h.checks]
  change model.insert first.context first.aggregate prepared = _
  rw [insert_eq_map, h.lookup]
  rfl

theorem edit_eq (h : model.Admits first prepared found) :
    model.edit first.edit = .ok (model.grown prepared found, [grownPath prepared found]) := by
  rw [Addition.edit, edit, h.addMember_eq]
  rfl

end Admits

/-- An addition is accepted, or its checks refuse it. -/
theorem admits_or_refuses (model : Model) (addition : Addition) :
    (∃ prepared found, model.Admits addition prepared found) ∨
      ∃ rejection, model.prepare addition.context addition.aggregate [] addition.member = .error rejection := by
  cases hPrepared : model.prepare addition.context addition.aggregate [] addition.member with
  | ok prepared =>
    obtain ⟨_, placed, target, -, -, -, -, hContext, hFound, -⟩ := prepare_eq_ok hPrepared
    exact .inl ⟨prepared, (placed, target), hPrepared, requireAggregate_eq_ok.mpr ⟨hContext, hFound⟩⟩
  | error rejection => exact .inr ⟨rejection, rfl⟩

theorem edit_eq_error {addition : Addition} {rejection : Rejection}
    (h : model.prepare addition.context addition.aggregate [] addition.member = .error rejection) :
    model.edit addition.edit = .error (.rejected rejection) := by
  rw [Addition.edit, edit, addMember, h]
  rfl

/-! ### What the second addition sees of the first -/

theorem index_changedTarget (index : Nat) (place : AggregatePlace) (change : Aggregate → Aggregate)
    (found : PlacedContext × PlacedAggregate) : (changedTarget index place change found).1.index = found.1.index := by
  unfold changedTarget
  split <;> rfl

theorem place_changedTarget (index : Nat) (place : AggregatePlace) (change : Aggregate → Aggregate)
    (found : PlacedContext × PlacedAggregate) : (changedTarget index place change found).2.place = found.2.place := by
  unfold changedTarget
  split
  · dsimp only
    split <;> rfl
  · rfl

/-- The list that the second addition is for is as it was. -/
theorem Admits.names_changedTarget (h : model.Admits first prepared found) (hLists : first.list ≠ second.list)
    (hLookup : model.requireAggregate second.context second.aggregate = .ok found') :
    second.member.kind.names (changedTarget found.1.index found.2.place
        (fun changed => changed.append prepared) found').2.aggregate =
      second.member.kind.names found'.2.aggregate := by
  unfold changedTarget
  by_cases hIndex : found'.1.index = found.1.index
  · by_cases hPlace : found'.2.place = found.2.place
    · obtain ⟨hContext, hAggregate⟩ := names_eq_of_place_eq hLookup h.lookup hIndex hPlace
      have hKind : prepared.kind ≠ second.member.kind := by
        intro hSame
        refine hLists ?_
        rw [Addition.list, Addition.list, hContext, hAggregate, ← h.kind_eq, hSame]
      simp only [if_pos hIndex, if_pos hPlace, names_append_of_ne _ hKind]
    · simp only [if_pos hIndex, if_neg hPlace]
  · rw [if_neg hIndex]

theorem Admits.exists_firstAggregate (h : model.Admits first prepared found) :
    ∃ target replace place, model.FirstAggregate first.context first.aggregate target replace place ∧
      model.grown prepared found = replace (target.append prepared) := by
  obtain ⟨hContext, hFound⟩ := requireAggregate_eq_ok.mp h.lookup
  obtain ⟨target, replace, place, hTarget⟩ := Model.exists_firstAggregate hContext hFound
  have hInsert := hTarget.insert_eq prepared
  rw [insert_eq_map, h.lookup] at hInsert
  exact ⟨target, replace, place, hTarget, congrArg Prod.fst (Except.ok.inj hInsert)⟩

theorem Admits.firstOccurrence?_grown (h : model.Admits first prepared found) {name : String}
    (hName : name ≠ prepared.name ∨ prepared.kind = .service) :
    (model.grown prepared found).firstOccurrence? name = model.firstOccurrence? name := by
  obtain ⟨target, replace, place, hTarget, hGrown⟩ := h.exists_firstAggregate
  rw [hGrown]
  rcases hName with hName | hKind
  · exact hTarget.firstOccurrence?_append hName
  · cases prepared with
    | service content =>
      -- Services are not among the uses of shared names, so the uses stay as they are.
      obtain ⟨front, owner, back, rfl, hReplace⟩ := hTarget.occurrences_replace
      have hModel := hReplace owner.aggregate
      rw [hTarget.replace_self] at hModel
      rw [firstOccurrence?, firstOccurrence?, hReplace, hModel]
      rfl
    | _ => cases hKind

theorem Admits.prepare_grown (h : model.Admits first prepared found) (hApart : first.Independent second) :
    (model.grown prepared found).prepare second.context second.aggregate [] second.member =
      model.prepare second.context second.aggregate [] second.member := by
  unfold Model.prepare
  rw [grown, requireAggregate_changeAggregate fun aggregate => name_append aggregate prepared]
  cases hChecked : checkedName second.member.name with
  | error rejection => simp only [bind, Except.bind]
  | ok name =>
    have hFirst : second.member.kind.sharesNames = true →
        (model.grown prepared found).firstOccurrence? name = model.firstOccurrence? name := by
      intro hShares
      refine h.firstOccurrence?_grown ?_
      rw [h.name_eq, h.kind_eq, (checkedName_eq_ok.mp hChecked).1]
      rcases hApart.names with hNe | hService | hService
      · exact .inl hNe.symm
      · exact .inr hService
      · rw [hService] at hShares
        cases hShares
    cases hLookup : model.requireAggregate second.context second.aggregate with
    | error rejection => simp only [bind, Except.bind, Functor.map, Except.map]
    | ok target =>
      have hNames := h.names_changedTarget hApart.lists hLookup
      simp only [bind, Except.bind, Functor.map, Except.map, hNames]
      by_cases hShares : second.member.kind.sharesNames = true
      · rw [← grown, hFirst hShares]
      · simp only [if_neg hShares]

theorem Admits.grown (h : model.Admits first prepared found) (h' : model.Admits second prepared' found')
    (hApart : first.Independent second) :
    (model.grown prepared found).Admits second prepared'
      (changedTarget found.1.index found.2.place (fun changed => changed.append prepared) found') where
  checks := (h.prepare_grown hApart).trans h'.checks
  lookup := by
    rw [Model.grown, requireAggregate_changeAggregate fun aggregate => name_append aggregate prepared, h'.lookup]
    rfl

theorem Admits.grownPath_changedTarget (h : model.Admits first prepared found)
    (h' : model.Admits second prepared' found') (hApart : first.Independent second) :
    grownPath prepared'
        (changedTarget found.1.index found.2.place (fun changed => changed.append prepared) found') =
      grownPath prepared' found' := by
  rw [grownPath, grownPath, h'.kind_eq, h.names_changedTarget hApart.lists h'.lookup, PlacedContext.path,
    PlacedContext.path, index_changedTarget, place_changedTarget]

theorem changeAggregate_comm {index' : Nat} {place' : AggregatePlace} {next : Aggregate → Aggregate}
    {index : Nat} {place : AggregatePlace} {change : Aggregate → Aggregate}
    (h : index ≠ index' ∨ place ≠ place' ∨ ∀ aggregate, change (next aggregate) = next (change aggregate)) :
    (model.changeAggregate index place change).changeAggregate index' place' next =
      (model.changeAggregate index' place' next).changeAggregate index place change := by
  refine congrArg (fun boundedContexts => { model with boundedContexts }) (modify_comm model.boundedContexts ?_)
  exact h.imp_right fun hPlace context => (BoundedContext.modifyAggregate_comm hPlace).symm

theorem Admits.grown_comm (h : model.Admits first prepared found) (h' : model.Admits second prepared' found')
    (hApart : first.Independent second) :
    (model.grown prepared found).grown prepared'
        (changedTarget found.1.index found.2.place (fun changed => changed.append prepared) found') =
      (model.grown prepared' found').grown prepared
        (changedTarget found'.1.index found'.2.place (fun changed => changed.append prepared') found) := by
  simp only [Model.grown, index_changedTarget, place_changedTarget]
  refine changeAggregate_comm ?_
  by_cases hIndex : found.1.index = found'.1.index
  · by_cases hPlace : found.2.place = found'.2.place
    · obtain ⟨hContext, hAggregate⟩ := names_eq_of_place_eq h.lookup h'.lookup hIndex hPlace
      have hKind : prepared'.kind ≠ prepared.kind := by
        intro hSame
        refine hApart.lists ?_
        rw [Addition.list, Addition.list, hContext, hAggregate, ← h.kind_eq, ← h'.kind_eq, hSame]
      exact .inr (.inr fun target => append_comm hKind target)
    · exact .inr (.inl hPlace)
  · exact .inl hIndex

/-- Two additions that do not meet have the same outcomes in either order, and lead to one model. -/
theorem additions_commute (model : Model) {first second : Addition} (hApart : first.Independent second) :
    (model.after first.edit).outcome second.edit = model.outcome second.edit ∧
      (model.after second.edit).outcome first.edit = model.outcome first.edit ∧
      (model.after first.edit).after second.edit = (model.after second.edit).after first.edit := by
  rcases admits_or_refuses model first with ⟨prepared, found, h⟩ | ⟨rejection, hRefused⟩ <;>
    rcases admits_or_refuses model second with ⟨prepared', found', h'⟩ | ⟨rejection', hRefused'⟩
  · have hSecond := (h.grown h' hApart).edit_eq
    have hFirst := (h'.grown h hApart.symm).edit_eq
    simp only [after, outcome, h.edit_eq, h'.edit_eq, hSecond, hFirst, h.grownPath_changedTarget h' hApart,
      h'.grownPath_changedTarget h hApart.symm]
    exact ⟨rfl, rfl, h.grown_comm h' hApart⟩
  · have hSecond := edit_eq_error ((h.prepare_grown hApart).trans hRefused')
    simp only [after, outcome, h.edit_eq, edit_eq_error hRefused', hSecond, and_self]
  · have hFirst := edit_eq_error ((h'.prepare_grown hApart.symm).trans hRefused)
    simp only [after, outcome, h'.edit_eq, edit_eq_error hRefused, hFirst, and_self]
  · simp only [after, outcome, edit_eq_error hRefused, edit_eq_error hRefused', and_self]

/-- A value object and a service of one name, added to one aggregate. -/
theorem additions_commute_orderId :
    let model : Model := { boundedContexts := [{ name := "Sales", aggregates := [{ name := "Orders" }] }] }
    let object : Addition := ⟨"Sales", "Orders", .valueObject { name := "OrderId" }⟩
    let service : Addition := ⟨"Sales", "Orders", .service { name := " OrderId" }⟩
    object.Independent service ∧
      (model.after object.edit).outcome service.edit = model.outcome service.edit ∧
      (model.after service.edit).outcome object.edit = model.outcome object.edit ∧
      (model.after object.edit).after service.edit = (model.after service.edit).after object.edit := by
  intro model object service
  have hApart : object.Independent service := ⟨by decide, .inr (.inr rfl)⟩
  exact ⟨hApart, additions_commute model hApart⟩

end Model

end DomainAtlas
