import DomainAtlas.Proofs.Editing.Sessions
import Mathlib.Data.List.Nodup

/-! # No identity is given twice

The elements of a session have different identities, all less than the next one: so it is when a model is numbered, and
so it stays, since an edit gives the numbers from the next one on and leaves those that were given. What is added is
added at the end of a list, so an identity that was handed out leads to the same element ever after.
-/
set_option autoImplicit false

namespace DomainAtlas

variable {α β : Type}

/-! ## The identities of elements -/

def idsIn (inner : α → List ElementId) (elements : List (Identified α)) : List ElementId :=
  elements.flatMap fun element => inner element.value ++ [element.id]

theorem map_fst_placesIn (field : Field) (inner : α → List (ElementId × Path)) (elements : List (Identified α)) :
    (placesIn field inner elements).map (·.1) = idsIn (fun value => (inner value).map (·.1)) elements := by
  rw [placesIn, idsIn, List.map_flatMap]
  simp only [List.map_append, List.map_map, Function.comp_def, List.map_cons, List.map_nil]
  conv_rhs => rw [← List.zipIdx_map_fst 0 elements, List.flatMap_map]

theorem idsIn_leaves (elements : List (Identified α)) : idsIn (fun _ => []) elements = elements.map (·.id) := by
  simp only [idsIn, List.nil_append]
  exact List.flatMap_pure_eq_map ..

theorem map_fst_leafPlaces (field : Field) (elements : List (Identified α)) :
    (leafPlaces field elements).map (·.1) = elements.map (·.id) := by
  rw [leafPlaces, map_fst_placesIn]
  exact idsIn_leaves elements

def TrackedAggregate.ids (aggregate : TrackedAggregate) : List ElementId :=
  aggregate.entities.map (·.id) ++ aggregate.valueObjects.map (·.id) ++ aggregate.domainEvents.map (·.id)
    ++ aggregate.commands.map (·.id) ++ aggregate.services.map (·.id)

def TrackedModule.ids (module : TrackedModule) : List ElementId :=
  idsIn TrackedAggregate.ids module.aggregates

def TrackedContext.ids (context : TrackedContext) : List ElementId :=
  idsIn TrackedAggregate.ids context.aggregates ++ idsIn TrackedModule.ids context.modules

theorem TrackedAggregate.map_fst_places (aggregate : TrackedAggregate) : aggregate.places.map (·.1) = aggregate.ids := by
  simp only [places, List.map_append, map_fst_leafPlaces, ids]

theorem TrackedModule.map_fst_places (module : TrackedModule) : module.places.map (·.1) = module.ids := by
  simp only [places, map_fst_placesIn, TrackedAggregate.map_fst_places, ids]

theorem TrackedContext.map_fst_places (context : TrackedContext) : context.places.map (·.1) = context.ids := by
  simp only [places, List.map_append, map_fst_placesIn, TrackedAggregate.map_fst_places, TrackedModule.map_fst_places,
    ids]

theorem TrackedModel.ids_eq (model : TrackedModel) :
    model.ids = (model.contextMap.elim [] fun map => map.value.relationships.map (·.id)) ++
      idsIn TrackedContext.ids model.boundedContexts ++ (model.contextMap.map (·.id)).toList := by
  rw [ids, places, List.map_append, map_fst_placesIn]
  simp only [TrackedContext.map_fst_places]
  cases model.contextMap with
  | none => rfl
  | some map => simp only [Option.elim_some, TrackedMap.places, map_fst_leafPlaces]

/-! ## Numbering -/

/-- The numbers are those from `first` on that are less than `next`. -/
def Numbers (first next : Nat) (ids : List ElementId) : Prop :=
  ∃ count, next = first + count ∧ ids = List.range' first count

namespace Numbers

variable {first between next : Nat} {ids others : List ElementId}

theorem nil (first : Nat) : Numbers first first [] :=
  ⟨0, rfl, rfl⟩

theorem singleton (first : Nat) : Numbers first (first + 1) [first] :=
  ⟨1, rfl, rfl⟩

theorem append (h : Numbers first between ids) (hOthers : Numbers between next others) :
    Numbers first next (ids ++ others) := by
  obtain ⟨count, rfl, rfl⟩ := h
  obtain ⟨more, rfl, rfl⟩ := hOthers
  exact ⟨count + more, Nat.add_assoc .., List.range'_append_1⟩

end Numbers

theorem numbers_identifyEach {inner : α → Numbering β} {ids : β → List ElementId}
    (h : ∀ value first, Numbers first (inner value first).2 (ids (inner value first).1)) (values : List α)
    (first : ElementId) :
    Numbers first (identifyEach inner values first).2 (idsIn ids (identifyEach inner values first).1) := by
  induction values generalizing first with
  | nil => exact .nil first
  | cons value values ih =>
    have hValue := h value first
    have hRest := ih ((inner value first).2 + 1)
    exact (hValue.append (.singleton _)).append hRest

theorem numbers_identifyLeaves (values : List α) (first : ElementId) :
    Numbers first (identifyLeaves values first).2 ((identifyLeaves values first).1.map (·.id)) := by
  rw [← idsIn_leaves]
  exact numbers_identifyEach (fun _ next => .nil next) values first

theorem numbers_trackAggregate (aggregate : Aggregate) (first : ElementId) :
    Numbers first (aggregate.track first).2 (aggregate.track first).1.ids :=
  ((((numbers_identifyLeaves aggregate.entities first).append (numbers_identifyLeaves aggregate.valueObjects _)).append
    (numbers_identifyLeaves aggregate.domainEvents _)).append (numbers_identifyLeaves aggregate.commands _)).append
    (numbers_identifyLeaves aggregate.services _)

theorem numbers_trackModule (module : Module) (first : ElementId) :
    Numbers first (module.track first).2 (module.track first).1.ids :=
  numbers_identifyEach numbers_trackAggregate module.aggregates first

theorem numbers_trackContext (context : BoundedContext) (first : ElementId) :
    Numbers first (context.track first).2 (context.track first).1.ids :=
  (numbers_identifyEach numbers_trackAggregate context.aggregates first).append
    (numbers_identifyEach numbers_trackModule context.modules _)

theorem numbers_track (model : Model) (first : ElementId) :
    Numbers first (model.track first).2 (model.track first).1.ids := by
  rw [TrackedModel.ids_eq]
  obtain ⟨name, map?, contexts⟩ := model
  cases map? with
  | none =>
    exact ((Numbers.nil first).append (numbers_identifyEach numbers_trackContext contexts first)).append (.nil _)
  | some map =>
    exact ((numbers_identifyLeaves map.relationships first).append
      (numbers_identifyEach numbers_trackContext contexts _)).append (.singleton _)

/-! ## What is numbered -/

theorem values_identifyEach {inner : α → Numbering β} {contents : β → α}
    (h : ∀ value first, contents (inner value first).1 = value) (values : List α) (first : ElementId) :
    (identifyEach inner values first).1.map (fun element => contents element.value) = values := by
  induction values generalizing first with
  | nil => rfl
  | cons value values ih => exact congrArg₂ List.cons (h value first) (ih _)

theorem values_identifyLeaves (values : List α) (first : ElementId) :
    (identifyLeaves values first).1.map (·.value) = values :=
  @values_identifyEach _ _ _ id (fun _ _ => rfl) values first

theorem contents_trackAggregate (aggregate : Aggregate) (first : ElementId) :
    (aggregate.track first).1.contents = aggregate := by
  rw [TrackedAggregate.contents]
  congr 1 <;> exact values_identifyLeaves _ _

theorem contents_trackModule (module : Module) (first : ElementId) : (module.track first).1.contents = module := by
  rw [TrackedModule.contents]
  congr 1
  exact values_identifyEach contents_trackAggregate _ _

theorem contents_trackContext (context : BoundedContext) (first : ElementId) :
    (context.track first).1.contents = context := by
  rw [TrackedContext.contents]
  congr 1
  · exact values_identifyEach contents_trackAggregate _ _
  · exact values_identifyEach contents_trackModule _ _

/-! ## Sessions -/

theorem contents_ofModel (model : Model) : (Session.ofModel model).contents = model := by
  obtain ⟨name, map?, contexts⟩ := model
  rw [Session.contents, TrackedModel.contents]
  congr 1
  · cases map? with
    | none => rfl
    | some map =>
      refine congrArg some ?_
      change TrackedMap.contents _ = map
      rw [TrackedMap.contents]
      congr 1
      exact values_identifyLeaves _ _
  · exact values_identifyEach contents_trackContext _ _

/-- All identities are different, and less than the next one. -/
def Session.Distinct (session : Session) : Prop :=
  session.model.ids.Nodup ∧ ∀ id ∈ session.model.ids, id < session.next

theorem distinct_ofModel (model : Model) : (Session.ofModel model).Distinct := by
  obtain ⟨count, hNext, hIds⟩ := numbers_track model 1
  have hModel : (Session.ofModel model).model.ids = List.range' 1 count := hIds
  refine ⟨?_, fun id hId => ?_⟩
  · rw [hModel]
    exact List.nodup_range'
  · rw [hModel, List.mem_range'_1] at hId
    exact Nat.lt_of_lt_of_eq hId.2 hNext.symm

/-! ## What an edit numbers -/

section

variable {inner : α → List ElementId} (id : ElementId)

theorem count_idsIn_append (elements : List (Identified α)) (element : Identified α) :
    (idsIn inner (elements ++ [element])).count id =
      (idsIn inner elements).count id + (inner element.value ++ [element.id]).count id := by
  simp only [idsIn, List.flatMap_append, List.flatMap_cons, List.flatMap_nil, List.append_nil, List.count_append]

/-- Identities that come in with the content of an element come in with the list. -/
theorem count_idsIn_put {elements front back : List (Identified α)} {element : Identified α} {changed : α}
    {new : List ElementId} (hElements : elements = front ++ element :: back)
    (h : (inner changed).count id = (inner element.value).count id + new.count id) :
    (idsIn inner (front ++ { element with value := changed } :: back)).count id =
      (idsIn inner elements).count id + new.count id := by
  simp only [hElements, idsIn, List.flatMap_append, List.flatMap_cons, List.count_append, h]
  omega

variable {new : List ElementId}

theorem TrackedContext.count_ids_aggregates {context : TrackedContext} {changed : List (Identified TrackedAggregate)}
    (h : (idsIn TrackedAggregate.ids changed).count id =
      (idsIn TrackedAggregate.ids context.aggregates).count id + new.count id) :
    ({ context with aggregates := changed } : TrackedContext).ids.count id = context.ids.count id + new.count id := by
  simp only [ids, List.count_append, h]
  omega

theorem TrackedContext.count_ids_modules {context : TrackedContext} {changed : List (Identified TrackedModule)}
    (h : (idsIn TrackedModule.ids changed).count id =
      (idsIn TrackedModule.ids context.modules).count id + new.count id) :
    ({ context with modules := changed } : TrackedContext).ids.count id = context.ids.count id + new.count id := by
  simp only [ids, List.count_append, h]
  omega

theorem TrackedContext.FirstAggregate.count_ids {context : TrackedContext} {name : String} {target : TrackedAggregate}
    {replace : TrackedAggregate → TrackedContext} {place : Path}
    (h : context.FirstAggregate name target replace place) {changed : TrackedAggregate}
    (hChanged : changed.ids.count id = target.ids.count id + new.count id) :
    (replace changed).ids.count id = context.ids.count id + new.count id := by
  cases h with
  | direct h => exact count_ids_aggregates id (count_idsIn_put id h.split hChanged)
  | inModule hDirect hModule h =>
    exact count_ids_modules id (count_idsIn_put id hModule.split (count_idsIn_put id h.split hChanged))

theorem TrackedModel.count_ids_put {model : TrackedModel} {front back : List (Identified TrackedContext)}
    {owner : Identified TrackedContext} {changed : TrackedContext}
    (hContexts : model.boundedContexts = front ++ owner :: back)
    (hChanged : changed.ids.count id = owner.value.ids.count id + new.count id) :
    ({ model with boundedContexts := front ++ { owner with value := changed } :: back } : TrackedModel).ids.count id =
      model.ids.count id + new.count id := by
  simp only [ids_eq, List.count_append, count_idsIn_put id hContexts hChanged]
  omega

theorem TrackedModel.FirstAggregate.count_ids {model : TrackedModel} {context aggregate : String}
    {target : TrackedAggregate} {replace : TrackedAggregate → TrackedModel} {place : Path}
    (h : model.FirstAggregate context aggregate target replace place) {changed : TrackedAggregate}
    (hChanged : changed.ids.count id = target.ids.count id + new.count id) :
    (replace changed).ids.count id = model.ids.count id + new.count id := by
  obtain ⟨hOwner, h⟩ := h
  exact count_ids_put id hOwner.split (h.count_ids id hChanged)

theorem TrackedAggregate.count_ids_append (target : TrackedAggregate) (fresh : ElementId) (member : Member) :
    (target.append fresh member).ids.count id = target.ids.count id + [fresh].count id := by
  cases member <;>
    simp only [ids, append, List.map_append, List.map_cons, List.map_nil, List.count_append] <;> omega

theorem TrackedAggregate.count_ids_appendFrom (target : TrackedAggregate) (first : ElementId) (members : List Member) :
    (target.appendFrom first members).ids.count id =
      target.ids.count id + (List.range' first members.length).count id := by
  induction members generalizing target first with
  | nil => rfl
  | cons member members ih =>
    have hNumbers : List.range' first (members.length + 1) = [first] ++ List.range' (first + 1) members.length := rfl
    rw [appendFrom, ih, count_ids_append, List.length_cons, hNumbers, List.count_append, Nat.add_assoc]

end

/-- An edit gives the numbers from the next one on, those of the new elements first. -/
theorem Edit.Extends.count_ids {session later : Session} {edit : Edit} {ids : List ElementId}
    (h : edit.Extends session later ids) :
    ∃ count, later.next = session.next + count ∧ ids <+: List.range' session.next count ∧
      ∀ id, later.model.ids.count id = session.model.ids.count id + (List.range' session.next count).count id := by
  cases h with
  | @boundedContext _ name hName =>
    refine ⟨1, rfl, List.prefix_rfl, fun id => ?_⟩
    have hContexts : (idsIn TrackedContext.ids (session.model.boundedContexts ++ [⟨session.next, { name }⟩])).count id =
        (idsIn TrackedContext.ids session.model.boundedContexts).count id + (List.range' session.next 1).count id :=
      count_idsIn_append id _ _
    simp only [TrackedModel.ids_eq, List.count_append, hContexts]
    omega
  | module hName hOwner =>
    refine ⟨1, rfl, List.prefix_rfl, fun id => TrackedModel.count_ids_put id hOwner.split ?_⟩
    exact TrackedContext.count_ids_modules id (count_idsIn_append id _ _)
  | aggregate hName hOwner =>
    refine ⟨1, rfl, List.prefix_rfl, fun id => TrackedModel.count_ids_put id hOwner.split ?_⟩
    exact TrackedContext.count_ids_aggregates id (count_idsIn_append id _ _)
  | moduleAggregate hName hOwner hTarget =>
    refine ⟨1, rfl, List.prefix_rfl, fun id => TrackedModel.count_ids_put id hOwner.split ?_⟩
    exact TrackedContext.count_ids_modules id (count_idsIn_put id hTarget.split (count_idsIn_append id _ _))
  | @member _ _ _ added target _ _ hNormal hTarget =>
    exact ⟨1, rfl, List.prefix_rfl, fun id => hTarget.count_ids id (target.count_ids_append id session.next added)⟩
  | @entities _ _ _ added _ target _ _ hNormal hTarget =>
    refine ⟨added.length, rfl, List.prefix_rfl, fun id => hTarget.count_ids id ?_⟩
    rw [← target.appendFrom_entities, target.count_ids_appendFrom, List.length_map]
  | @valueObjects _ _ _ added _ target _ _ hNormal hTarget =>
    refine ⟨added.length, rfl, List.prefix_rfl, fun id => hTarget.count_ids id ?_⟩
    rw [← target.appendFrom_valueObjects, target.count_ids_appendFrom, List.length_map]
  | noEntities => exact ⟨0, rfl, List.prefix_rfl, fun id => rfl⟩
  | noValueObjects => exact ⟨0, rfl, List.prefix_rfl, fun id => rfl⟩
  | relationship hMap =>
    refine ⟨1, rfl, List.prefix_rfl, fun id => ?_⟩
    simp only [TrackedModel.ids_eq, hMap, Option.elim_some, Option.map_some, Option.toList_some, List.map_append,
      List.map_cons, List.map_nil, List.count_append, List.range'_one]
    omega
  | firstRelationship hMap =>
    refine ⟨2, rfl, ⟨[session.next + 1], rfl⟩, fun id => ?_⟩
    have hNew : List.range' session.next 2 = [session.next] ++ [session.next + 1] := rfl
    simp only [TrackedModel.ids_eq, hMap, Option.elim_some, Option.elim_none, Option.map_some, Option.map_none,
      Option.toList_some, Option.toList_none, List.map_cons, List.map_nil, List.count_append, List.count_nil, hNew]
    omega

theorem Edit.Extends.perm_ids {session later : Session} {edit : Edit} {ids : List ElementId}
    (h : edit.Extends session later ids) :
    ∃ count, later.next = session.next + count ∧ ids <+: List.range' session.next count ∧
      later.model.ids.Perm (session.model.ids ++ List.range' session.next count) := by
  obtain ⟨count, hNext, hIds, hCount⟩ := h.count_ids
  refine ⟨count, hNext, hIds, List.perm_iff_count.mpr fun id => ?_⟩
  rw [hCount, List.count_append]

/-! ## Where an identity leads -/

section

variable {field : Field} {inner : α → List (ElementId × Path)}

theorem placesIn_subset_put {elements front back : List (Identified α)} {element : Identified α} {changed : α}
    (hElements : elements = front ++ element :: back) (h : inner element.value ⊆ inner changed) :
    placesIn field inner elements ⊆ placesIn field inner (front ++ { element with value := changed } :: back) := by
  intro place hPlace
  simp only [hElements, placesIn, List.zipIdx_append, List.zipIdx_cons, List.flatMap_append, List.flatMap_cons,
    List.mem_append] at hPlace ⊢
  rcases hPlace with hFront | (hInner | hOwn) | hBack
  · exact .inl hFront
  · exact .inr (.inl (.inl (List.map_subset _ h hInner)))
  · exact .inr (.inl (.inr hOwn))
  · exact .inr (.inr hBack)

end

namespace TrackedContext

variable {context : TrackedContext}

theorem places_subset_aggregates {changed : List (Identified TrackedAggregate)}
    (h : placesIn .aggregates TrackedAggregate.places context.aggregates ⊆
      placesIn .aggregates TrackedAggregate.places changed) :
    context.places ⊆ ({ context with aggregates := changed } : TrackedContext).places :=
  List.append_subset.mpr ⟨List.subset_append_of_subset_left _ h, List.subset_append_right _ _⟩

theorem places_subset_modules {changed : List (Identified TrackedModule)}
    (h : placesIn .modules TrackedModule.places context.modules ⊆ placesIn .modules TrackedModule.places changed) :
    context.places ⊆ ({ context with modules := changed } : TrackedContext).places :=
  List.append_subset.mpr ⟨List.subset_append_left _ _, List.subset_append_of_subset_right _ h⟩

theorem FirstAggregate.places_subset {name : String} {target : TrackedAggregate}
    {replace : TrackedAggregate → TrackedContext} {place : Path} (h : context.FirstAggregate name target replace place)
    {changed : TrackedAggregate} (hChanged : target.places ⊆ changed.places) :
    context.places ⊆ (replace changed).places := by
  cases h with
  | direct h => exact places_subset_aggregates (placesIn_subset_put h.split hChanged)
  | inModule hDirect hModule h =>
    exact places_subset_modules (placesIn_subset_put hModule.split (placesIn_subset_put h.split hChanged))

end TrackedContext

namespace TrackedModel

variable {model : TrackedModel}

theorem places_subset_contexts {changed : List (Identified TrackedContext)}
    (h : placesIn .boundedContexts TrackedContext.places model.boundedContexts ⊆
      placesIn .boundedContexts TrackedContext.places changed) :
    model.places ⊆ ({ model with boundedContexts := changed } : TrackedModel).places :=
  List.append_subset.mpr ⟨List.subset_append_left _ _, List.subset_append_of_subset_right _ h⟩

theorem FirstAggregate.places_subset {context aggregate : String} {target : TrackedAggregate}
    {replace : TrackedAggregate → TrackedModel} {place : Path}
    (h : model.FirstAggregate context aggregate target replace place) {changed : TrackedAggregate}
    (hChanged : target.places ⊆ changed.places) : model.places ⊆ (replace changed).places := by
  obtain ⟨hOwner, h⟩ := h
  exact places_subset_contexts (placesIn_subset_put hOwner.split (h.places_subset hChanged))

/-- Where the identities are different, one leads to the place where it stands. -/
theorem pathOf?_eq_some_iff (hIds : model.ids.Nodup) {id : ElementId} {path : Path} :
    model.pathOf? id = some path ↔ (id, path) ∈ model.places := by
  have hPlaces : (model.places.map (·.1)).Nodup := (List.nodup_append.mp hIds).1
  have of_found {place : ElementId × Path} (hFound : model.places.find? (fun place => place.1 == id) = some place) :
      place.1 = id := by
    have hTest := List.find?_some hFound
    exact beq_iff_eq.mp hTest
  rw [pathOf?, Option.map_eq_some_iff]
  constructor
  · rintro ⟨place, hFound, rfl⟩
    obtain rfl : place.1 = id := of_found hFound
    exact List.mem_of_find?_eq_some hFound
  · intro hMem
    obtain ⟨place, hFound⟩ : ∃ place, (model.places.find? fun place => place.1 == id) = some place :=
      Option.isSome_iff_exists.mp (List.find?_isSome.mpr ⟨_, hMem, beq_iff_eq.mpr rfl⟩)
    have hSame := List.inj_on_of_nodup_map hPlaces (List.mem_of_find?_eq_some hFound) hMem
      (of_found hFound)
    exact ⟨place, hFound, congrArg (·.2) hSame⟩

end TrackedModel

/-- Every element stays where it is. -/
theorem Edit.Extends.places_subset {session later : Session} {edit : Edit} {ids : List ElementId}
    (h : edit.Extends session later ids) : session.model.places ⊆ later.model.places := by
  cases h with
  | boundedContext hName => exact TrackedModel.places_subset_contexts (placesIn_subset_append _ _ _ _)
  | module hName hOwner =>
    refine TrackedModel.places_subset_contexts (placesIn_subset_put hOwner.split ?_)
    exact TrackedContext.places_subset_modules (placesIn_subset_append _ _ _ _)
  | aggregate hName hOwner =>
    refine TrackedModel.places_subset_contexts (placesIn_subset_put hOwner.split ?_)
    exact TrackedContext.places_subset_aggregates (placesIn_subset_append _ _ _ _)
  | moduleAggregate hName hOwner hTarget =>
    refine TrackedModel.places_subset_contexts (placesIn_subset_put hOwner.split ?_)
    exact TrackedContext.places_subset_modules (placesIn_subset_put hTarget.split (placesIn_subset_append _ _ _ _))
  | @member _ _ _ added _ _ _ hNormal hTarget =>
    exact hTarget.places_subset fun _ h => TrackedAggregate.mem_places_of_append h session.next added
  | @entities _ _ _ added _ target _ _ hNormal hTarget =>
    rw [← target.appendFrom_entities]
    exact hTarget.places_subset fun _ h => TrackedAggregate.mem_places_of_appendFrom h _ _
  | @valueObjects _ _ _ added _ target _ _ hNormal hTarget =>
    rw [← target.appendFrom_valueObjects]
    exact hTarget.places_subset fun _ h => TrackedAggregate.mem_places_of_appendFrom h _ _
  | noEntities => exact List.Subset.refl _
  | noValueObjects => exact List.Subset.refl _
  | relationship hMap =>
    simp only [TrackedModel.places, hMap, Option.elim_some]
    refine List.append_subset.mpr ⟨List.subset_append_of_subset_left _ ?_, List.subset_append_right _ _⟩
    exact placesIn_subset_append .relationships (fun _ => []) _ _
  | firstRelationship hMap =>
    simp only [TrackedModel.places, hMap, Option.elim_none, List.nil_append]
    exact List.subset_append_right _ _

/-! ## Runs of edits -/

namespace Session

variable {session later : Session} {edit : Edit} {ids : List ElementId}

/-- An identity that is given is new. -/
theorem Distinct.notMem_ids (hSession : session.Distinct) (h : edit.Extends session later ids) :
    ∀ id ∈ ids, id ∉ session.model.ids := by
  obtain ⟨count, -, hIds, -⟩ := h.perm_ids
  intro id hId hOld
  have hNew := (List.mem_range'_1.mp (hIds.subset hId)).1
  exact absurd (hSession.2 id hOld) (Nat.not_lt.mpr hNew)

theorem Distinct.of_extends (hSession : session.Distinct) (h : edit.Extends session later ids) : later.Distinct := by
  obtain ⟨count, hNext, -, hPerm⟩ := h.perm_ids
  obtain ⟨hNodup, hLess⟩ := hSession
  refine ⟨hPerm.nodup_iff.mpr (List.nodup_append.mpr ⟨hNodup, List.nodup_range', ?_⟩), fun id hId => ?_⟩
  · intro old hOld new hNew
    exact Nat.ne_of_lt (Nat.lt_of_lt_of_le (hLess old hOld) (List.mem_range'_1.mp hNew).1)
  · rw [hNext]
    rcases List.mem_append.mp (hPerm.mem_iff.mp hId) with hOld | hNew
    · exact Nat.lt_add_right count (hLess id hOld)
    · exact (List.mem_range'_1.mp hNew).2

/-- An edit that is refused leaves the session, and one that is accepted extends it. -/
theorem after_eq_or_extends (session : Session) (edit : Edit) :
    session.after edit = session ∨ ∃ ids, edit.Extends session (session.after edit) ids := by
  have hMirrors := Editing.mirrors_edit session edit
  rw [after]
  generalize session.contents.edit edit = outcome at hMirrors
  generalize (Editing.perform edit).run session = result at hMirrors ⊢
  cases hMirrors with
  | refused error => exact .inl rfl
  | accepted hContents hExtends hPlaces => exact .inr ⟨_, hExtends⟩

theorem Distinct.after (hSession : session.Distinct) (edit : Edit) : (session.after edit).Distinct := by
  rcases session.after_eq_or_extends edit with hSame | ⟨ids, hExtends⟩
  · rwa [hSame]
  · exact hSession.of_extends hExtends

theorem Distinct.afterAll (hSession : session.Distinct) (edits : List Edit) : (session.afterAll edits).Distinct := by
  induction edits generalizing session with
  | nil => exact hSession
  | cons edit edits ih => exact ih (hSession.after edit)

theorem places_subset_afterAll (session : Session) (edits : List Edit) :
    session.model.places ⊆ (session.afterAll edits).model.places := by
  induction edits generalizing session with
  | nil => exact List.Subset.refl _
  | cons edit edits ih =>
    refine List.Subset.trans ?_ (ih (session.after edit))
    rcases session.after_eq_or_extends edit with hSame | ⟨ids, hExtends⟩
    · rw [hSame]
      exact List.Subset.refl _
    · exact hExtends.places_subset

/-- An identity leads to the same element whatever is added. -/
theorem Distinct.pathOf?_afterAll (hSession : session.Distinct) {id : ElementId} {path : Path}
    (h : session.model.pathOf? id = some path) (edits : List Edit) :
    (session.afterAll edits).model.pathOf? id = some path := by
  have hPlace := (TrackedModel.pathOf?_eq_some_iff hSession.1).mp h
  exact (TrackedModel.pathOf?_eq_some_iff (hSession.afterAll edits).1).mpr (session.places_subset_afterAll edits hPlace)

/-- After any edits of any model, no two elements have the same identity. -/
theorem nodup_ids_afterAll_ofModel (model : Model) (edits : List Edit) :
    ((ofModel model).afterAll edits).model.ids.Nodup :=
  ((distinct_ofModel model).afterAll edits).1

end Session

end DomainAtlas
