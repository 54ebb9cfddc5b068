import DomainAtlas.Proofs.Editing.Focus
import DomainAtlas.Proofs.Editing.Appending

/-! # What edits add to a session

An accepted edit gives identities to the elements that it brings, appends them to one list in order, and leaves every
other element with its place, its identity and its content. Each step that adds one element is followed beside the same
step on the contents, bind by bind: where the one fails the other does, and nothing has been changed by then.
-/
set_option autoImplicit false

namespace DomainAtlas

/-- The values with the identities from `first` on. -/
def numberedFrom {α : Type} (first : ElementId) : List α → List (Identified α)
  | [] => []
  | value :: values => ⟨first, value⟩ :: numberedFrom (first + 1) values

/-- What an accepted edit makes of `session`, and the identities of the new elements. The names `context`, `module?` and
`aggregate` of an edit mean the first element that is called so. -/
inductive Edit.Extends (session : Session) : Edit → Session → List ElementId → Prop
  | boundedContext {raw name : String} (hName : NameOf raw name) :
      Extends session (.boundedContext raw)
        { model := { session.model with
            boundedContexts := session.model.boundedContexts ++ [⟨session.next, { name }⟩] }
          next := session.next + 1 }
        [session.next]
  | module {context raw name : String} {front back : List (Identified TrackedContext)}
      {owner : Identified TrackedContext} (hName : NameOf raw name)
      (hOwner : FirstWith (·.value.name = context) session.model.boundedContexts front owner back) :
      Extends session (.module context raw)
        { model := { session.model with
            boundedContexts := front ++ { owner with
              value := { owner.value with modules := owner.value.modules ++ [⟨session.next, { name }⟩] } } :: back }
          next := session.next + 1 }
        [session.next]
  | aggregate {context raw name : String} {front back : List (Identified TrackedContext)}
      {owner : Identified TrackedContext} (hName : NameOf raw name)
      (hOwner : FirstWith (·.value.name = context) session.model.boundedContexts front owner back) :
      Extends session (.aggregate context none raw)
        { model := { session.model with
            boundedContexts := front ++ { owner with
              value := { owner.value with
                aggregates := owner.value.aggregates ++ [⟨session.next, { name }⟩] } } :: back }
          next := session.next + 1 }
        [session.next]
  | moduleAggregate {context module raw name : String} {front back : List (Identified TrackedContext)}
      {owner : Identified TrackedContext} {modulesFront modulesBack : List (Identified TrackedModule)}
      {target : Identified TrackedModule} (hName : NameOf raw name)
      (hOwner : FirstWith (·.value.name = context) session.model.boundedContexts front owner back)
      (hTarget : FirstWith (·.value.name = module) owner.value.modules modulesFront target modulesBack) :
      Extends session (.aggregate context (some module) raw)
        { model := { session.model with
            boundedContexts := front ++ { owner with
              value := { owner.value with
                modules := modulesFront ++ { target with
                  value := { target.value with
                    aggregates := target.value.aggregates ++ [⟨session.next, { name }⟩] } } :: modulesBack } } :: back }
          next := session.next + 1 }
        [session.next]
  | member {context aggregate : String} {given added : Member} {target : TrackedAggregate}
      {replace : TrackedAggregate → TrackedModel} {place : Path} (hNormal : given.NormalizesTo added)
      (hTarget : session.model.FirstAggregate context aggregate target replace place) :
      Extends session (.member context aggregate given)
        { model := replace (target.append session.next added), next := session.next + 1 }
        [session.next]
  | entities {context aggregate : String} {given added : List Entity} {mode : BatchMode} {target : TrackedAggregate}
      {replace : TrackedAggregate → TrackedModel} {place : Path}
      (hNormal : List.Forall₂ Entity.NormalizesTo given added)
      (hTarget : session.model.FirstAggregate context aggregate target replace place) :
      Extends session (.entities context aggregate given mode)
        { model := replace { target with entities := target.entities ++ numberedFrom session.next added }
          next := session.next + added.length }
        (List.range' session.next added.length)
  | valueObjects {context aggregate : String} {given added : List DomainObject} {mode : BatchMode}
      {target : TrackedAggregate} {replace : TrackedAggregate → TrackedModel} {place : Path}
      (hNormal : List.Forall₂ DomainObject.NormalizesTo given added)
      (hTarget : session.model.FirstAggregate context aggregate target replace place) :
      Extends session (.valueObjects context aggregate given mode)
        { model := replace { target with valueObjects := target.valueObjects ++ numberedFrom session.next added }
          next := session.next + added.length }
        (List.range' session.next added.length)
  /-- A batch without elements is accepted whether or not its aggregate is there. -/
  | noEntities {context aggregate : String} {mode : BatchMode} :
      Extends session (.entities context aggregate [] mode) session []
  | noValueObjects {context aggregate : String} {mode : BatchMode} :
      Extends session (.valueObjects context aggregate [] mode) session []
  | relationship {relationship : Relationship} {map : Identified TrackedMap}
      (hMap : session.model.contextMap = some map) :
      Extends session (.relationship relationship)
        { model := { session.model with
            contextMap := some { map with
              value := { map.value with
                relationships := map.value.relationships ++ [⟨session.next, relationship⟩] } } }
          next := session.next + 1 }
        [session.next]
  /-- The context map that is created has an identity too. -/
  | firstRelationship {relationship : Relationship} (hMap : session.model.contextMap = none) :
      Extends session (.relationship relationship)
        { model := { session.model with
            contextMap := some ⟨session.next + 1, { relationships := [⟨session.next, relationship⟩] }⟩ }
          next := session.next + 2 }
        [session.next]

/-! ## Steps of a session -/

namespace Editing

variable {session : Session}

theorem run_contextMut (name : String) :
    (contextMut name).run session =
      match session.model.context? name with
      | some target => .ok target session
      | none => .error (.unknownContext name) session := by
  rw [contextMut, EStateM.run_bind, EStateM.run_get]
  cases h : session.model.context? name <;> simp only [h] <;> rfl

theorem run_aggregateMut (context aggregate : String) :
    (aggregateMut context aggregate).run session =
      match session.model.context? context with
      | none => .error (.unknownContext context) session
      | some owner =>
        match owner.value.aggregate? aggregate with
        | some target => .ok (owner.inside target) session
        | none => .error (.unknownAggregate context aggregate) session := by
  rw [aggregateMut, EStateM.run_bind, run_contextMut]
  cases hOwner : session.model.context? context with
  | none => rfl
  | some owner => cases hTarget : owner.value.aggregate? aggregate <;> simp only [hTarget] <;> rfl

end Editing

/-! ## A step beside the same step on the contents -/

/-- Both fail alike, and the session is as it was, or they bring the same. -/
inductive Mirrors (session : Session) (edit : Edit) :
    Except Rejection (Model × Path) → EStateM.Result Rejection Session ElementId → Prop
  | refused (rejection : Rejection) : Mirrors session edit (.error rejection) (.error rejection session)
  | accepted {id : ElementId} {later : Session} {changed : Model} {path : Path} (hContents : later.contents = changed)
      (hExtends : edit.Extends session later [id]) (hPlace : (id, path) ∈ later.model.places) :
      Mirrors session edit (.ok (changed, path)) (.ok id later)

namespace Mirrors

variable {α : Type} {session : Session} {edit : Edit} {outcome : Except Rejection (Model × Path)}

theorem ofExcept {check : Except Rejection α} {next : α → Except Rejection (Model × Path)}
    {step : α → Editing Rejection ElementId}
    (h : ∀ value, check = .ok value → Mirrors session edit (next value) ((step value).run session)) :
    Mirrors session edit (check >>= next) ((MonadExcept.ofExcept check >>= step).run session) := by
  cases check with
  | error rejection => exact .refused rejection
  | ok value => exact h value rfl

theorem refuseIf {reason : Prop} [Decidable reason] {rejection : Rejection}
    {next : Unit → Except Rejection (Model × Path)} {step : Unit → Editing Rejection ElementId}
    (h : ¬ reason → Mirrors session edit (next ()) ((step ()).run session)) :
    Mirrors session edit (if reason then (throw rejection : Except Rejection Unit) >>= next else next ())
      ((if reason then (throw rejection : Editing Rejection Unit) >>= step else step ()).run session) := by
  by_cases hReason : reason
  · rw [if_pos hReason, if_pos hReason]
    exact .refused rejection
  · rw [if_neg hReason, if_neg hReason]
    exact h hReason

theorem get {step : Session → Editing Rejection ElementId}
    (h : Mirrors session edit outcome ((step session).run session)) :
    Mirrors session edit outcome ((MonadState.get >>= step).run session) :=
  h

theorem contextMut {context : String} {next : PlacedContext → Except Rejection (Model × Path)}
    {step : Focus TrackedModel TrackedContext → Editing Rejection ElementId}
    (h : ∀ front owner back, FirstWith (·.value.name = context) session.model.boundedContexts front owner back →
      Mirrors session edit (next ⟨front.length, owner.value.contents⟩) ((step ⟨owner.value, fun changed =>
        { session.model with boundedContexts := front ++ { owner with value := changed } :: back }⟩).run session)) :
    Mirrors session edit (session.contents.requireContext context >>= next)
      ((Editing.contextMut context >>= step).run session) := by
  rw [EStateM.run_bind, Editing.run_contextMut, Model.requireContext]
  rcases session.model.context?_cases context with ⟨hNone, hNoneContents⟩ | ⟨front, owner, back, hOwner⟩
  · rw [hNone, Session.contents, hNoneContents]
    exact .refused _
  · rw [TrackedModel.context?_of_firstWith hOwner, Session.contents, TrackedModel.findContext?_contents hOwner]
    exact h front owner back hOwner

end Mirrors

namespace Editing

variable {session : Session}

theorem mirrors_addBoundedContext (raw : String) :
    Mirrors session (.boundedContext raw) (session.contents.addBoundedContext raw)
      ((addBoundedContext raw).run session) := by
  refine .ofExcept fun name hName => .get <| .refuseIf fun _ => ?_
  refine .accepted ?_ (.boundedContext (checkedName_eq_ok.mp hName)) ?_
  · simp only [Session.contents, TrackedModel.contents, List.map_append, List.map_cons, List.map_nil]
    rfl
  · rw [Session.contents, TrackedModel.contents, List.length_map]
    exact List.mem_append_right _ (mem_placesIn _ [] _)

theorem mirrors_addModule (context raw : String) :
    Mirrors session (.module context raw) (session.contents.addModule context raw)
      ((addModule context raw).run session) := by
  refine .ofExcept fun name hName => .contextMut fun front owner back hOwner => .refuseIf fun _ => ?_
  refine .accepted ?_ (.module (checkedName_eq_ok.mp hName) hOwner) ?_
  · refine TrackedModel.contents_put hOwner ?_
    simp only [TrackedContext.contents, List.map_append, List.map_cons, List.map_nil]
    rfl
  · refine TrackedModel.mem_places_inside rfl (List.mem_append_right _ ?_)
    rw [TrackedContext.contents, List.length_map]
    exact mem_placesIn _ [] _

theorem mirrors_addAggregate (context : String) (module? : Option String) (raw : String) :
    Mirrors session (.aggregate context module? raw) (session.contents.addAggregate context module? raw)
      ((addAggregate context module? raw).run session) := by
  refine .ofExcept fun name hName => .ofExcept fun _ _ => .contextMut fun front owner back hOwner =>
    .refuseIf fun _ => ?_
  have hChecked := checkedName_eq_ok.mp hName
  cases module? with
  | none =>
    refine .accepted ?_ (.aggregate hChecked hOwner) ?_
    · refine TrackedModel.contents_put hOwner ?_
      simp only [TrackedContext.contents, List.map_append, List.map_cons, List.map_nil]
      rfl
    · refine TrackedModel.mem_places_inside rfl (List.mem_append_left _ ?_)
      rw [TrackedContext.contents, List.length_map]
      exact mem_placesIn _ [] _
  | some module =>
    rcases owner.value.module?_cases module with ⟨hNone, hNoneContents⟩ | ⟨modulesFront, target, modulesBack, hTarget⟩
    · simp only [hNone, hNoneContents]
      exact .refused _
    · simp only [TrackedContext.module?_of_firstWith hTarget, TrackedContext.findModule?_contents hTarget]
      refine .accepted ?_ (.moduleAggregate hChecked hOwner hTarget) ?_
      · refine TrackedModel.contents_put hOwner (TrackedContext.contents_putModule hTarget ?_)
        simp only [TrackedModule.contents, List.map_append, List.map_cons, List.map_nil]
        rfl
      · refine TrackedModel.mem_places_inside rfl (List.mem_append_right _ ?_)
        refine mem_placesIn_inside modulesFront modulesBack ?_
        rw [TrackedModule.contents, List.length_map]
        exact mem_placesIn _ [] _

/-! ## Members -/

theorem run_aggregateMut_of_firstAggregate {context aggregate : String} {target : TrackedAggregate}
    {replace : TrackedAggregate → TrackedModel} {place : Path}
    (h : session.model.FirstAggregate context aggregate target replace place) :
    (aggregateMut context aggregate).run session = .ok ⟨target, replace⟩ session := by
  obtain ⟨hOwner, h⟩ := h
  rw [run_aggregateMut, TrackedModel.context?_of_firstWith hOwner]
  simp only [h.aggregate?]
  rfl

theorem run_insert {context aggregate : String} {target : TrackedAggregate}
    {replace : TrackedAggregate → TrackedModel} {place : Path}
    (h : session.model.FirstAggregate context aggregate target replace place) (member : Member) :
    (insert context aggregate member).run session =
      .ok session.next { model := replace (target.append session.next member), next := session.next + 1 } := by
  rw [insert, EStateM.run_bind, run_aggregateMut_of_firstAggregate h]
  rfl

theorem contents_append (target : TrackedAggregate) (id : ElementId) (member : Member) :
    (target.append id member).contents = target.contents.append member := by
  cases member <;>
    simp only [TrackedAggregate.append, TrackedAggregate.contents, Aggregate.append, List.map_append, List.map_cons,
      List.map_nil]

theorem mem_places_append (target : TrackedAggregate) (id : ElementId) (member : Member) :
    (id, [(member.kind.field, (member.kind.names target.contents).length)]) ∈ (target.append id member).places := by
  cases member <;>
    simp only [Member.kind, MemberKind.field, MemberKind.names, TrackedAggregate.contents, TrackedAggregate.append,
      TrackedAggregate.places, List.length_map, List.mem_append, mem_leafPlaces, true_or, or_true]

theorem mirrors_addMember (context aggregate : String) (member : Member) :
    Mirrors session (.member context aggregate member) (session.contents.addMember context aggregate member)
      ((addMember context aggregate member).run session) := by
  refine .get <| .ofExcept fun prepared hPrepared => ?_
  obtain ⟨_, placed, found, -, -, -, -, hContext, hFound, -⟩ := Model.prepare_eq_ok hPrepared
  obtain ⟨target, replace, place, hTarget⟩ := TrackedModel.exists_firstAggregate hContext hFound
  obtain ⟨replaceContents, hContents, hReplace⟩ := hTarget.contents
  rw [run_insert hTarget, Session.contents, hContents.insert_eq]
  refine .accepted ?_ (.member (Model.normalizesTo_of_prepare hPrepared) hTarget) ?_
  · rw [Session.contents, hReplace, contents_append]
  · exact hTarget.mem_places (mem_places_append target session.next prepared)

theorem mirrors_addRelationship (relationship : Relationship) :
    Mirrors session (.relationship relationship) (session.contents.addRelationship relationship)
      ((addRelationship relationship).run session) := by
  refine .get <| .ofExcept fun _ _ => .ofExcept fun _ _ => .ofExcept fun _ _ => ?_
  cases hMap : session.model.contextMap with
  | some map =>
    simp only [mapOrNew, hMap]
    refine .accepted ?_ (.relationship hMap) ?_
    · simp only [Session.contents, TrackedModel.contents, TrackedMap.contents, hMap, Option.map_some, Option.getD_some,
        List.map_append, List.map_cons, List.map_nil]
    · simp only [Session.contents, TrackedModel.contents, TrackedMap.contents, hMap, Option.map_some, Option.getD_some,
        List.length_map]
      exact TrackedModel.mem_places_of_map rfl (mem_leafPlaces map.value.relationships session.next relationship)
  | none =>
    simp only [mapOrNew, hMap]
    refine .accepted ?_ (.firstRelationship hMap) ?_
    · simp only [Session.contents, TrackedModel.contents, TrackedMap.contents, hMap, Option.map_some, Option.map_none,
        Option.getD_none, List.map_cons, List.map_nil, List.nil_append]
    · simp only [Session.contents, TrackedModel.contents, hMap, Option.map_none, Option.getD_none, List.length_nil]
      exact TrackedModel.mem_places_of_map rfl (mem_leafPlaces [] session.next relationship)

end Editing

end DomainAtlas
