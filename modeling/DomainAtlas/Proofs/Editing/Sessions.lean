import DomainAtlas.Proofs.Editing.Extending

/-! # All or nothing

A session is changed in place, so that a step that stopped half-way would leave what it had added so far. None does: a
refused edit leaves the session as it was, with all its elements and identities and without a new context map. A batch
is inserted member by member, so for batches this needs more than the order of the steps: once all members are prepared,
no insertion fails. The contents of a session become what the edit makes of a plain model.
-/
set_option autoImplicit false

namespace DomainAtlas

/-! ## Several members -/

/-- Adds the members in order, with the identities from `first` on. -/
def TrackedAggregate.appendFrom (aggregate : TrackedAggregate) (first : ElementId) : List Member → TrackedAggregate
  | [] => aggregate
  | member :: members => (aggregate.append first member).appendFrom (first + 1) members

namespace TrackedAggregate

theorem contents_appendFrom (target : TrackedAggregate) (first : ElementId) (members : List Member) :
    (target.appendFrom first members).contents = members.foldl Aggregate.append target.contents := by
  induction members generalizing target first with
  | nil => rfl
  | cons member members ih => rw [appendFrom, ih, Editing.contents_append, List.foldl_cons]

theorem appendFrom_entities (target : TrackedAggregate) (first : ElementId) (added : List Entity) :
    target.appendFrom first (added.map .entity) =
      { target with entities := target.entities ++ numberedFrom first added } := by
  induction added generalizing target first with
  | nil => simp only [List.map_nil, appendFrom, numberedFrom, List.append_nil]
  | cons entity others ih =>
    simp only [List.map_cons, appendFrom, ih, append, numberedFrom, List.append_assoc, List.singleton_append]

theorem appendFrom_valueObjects (target : TrackedAggregate) (first : ElementId) (added : List DomainObject) :
    target.appendFrom first (added.map .valueObject) =
      { target with valueObjects := target.valueObjects ++ numberedFrom first added } := by
  induction added generalizing target first with
  | nil => simp only [List.map_nil, appendFrom, numberedFrom, List.append_nil]
  | cons object others ih =>
    simp only [List.map_cons, appendFrom, ih, append, numberedFrom, List.append_assoc, List.singleton_append]

theorem mem_places_of_append {target : TrackedAggregate} {place : ElementId × Path} (h : place ∈ target.places)
    (id : ElementId) (member : Member) : place ∈ (target.append id member).places := by
  simp only [places, List.mem_append] at h ⊢
  rcases h with (((h | h) | h) | h) | h <;> cases member <;>
    simp only [append, h, mem_leafPlaces_append h, true_or, or_true]

theorem mem_places_of_appendFrom {target : TrackedAggregate} {place : ElementId × Path} (h : place ∈ target.places)
    (first : ElementId) (members : List Member) : place ∈ (target.appendFrom first members).places := by
  induction members generalizing target first with
  | nil => exact h
  | cons member members ih => exact ih (mem_places_of_append h first member) (first + 1)

/-- The members of one kind are found one after another behind those that were there. -/
theorem forall₂_places_appendFrom (target : TrackedAggregate) (first : ElementId) {kind : MemberKind}
    {members : List Member} (hKind : ∀ member ∈ members, member.kind = kind) :
    List.Forall₂ (fun id path => (id, path) ∈ (target.appendFrom first members).places)
      (List.range' first members.length)
      ((List.range' (kind.names target.contents).length members.length).map fun index => [(kind.field, index)]) := by
  induction members generalizing target first with
  | nil => exact .nil
  | cons member members ih =>
    obtain ⟨rfl, hOthers⟩ := List.forall_mem_cons.mp hKind
    have hRest := ih (target.append first member) (first + 1) hOthers
    rw [Editing.contents_append, Model.names_append target.contents rfl, List.length_append] at hRest
    exact .cons (mem_places_of_appendFrom (Editing.mem_places_append target first member) _ _) hRest

end TrackedAggregate

namespace Editing

variable {session : Session} {context aggregate : String}

theorem name_append (target : TrackedAggregate) (id : ElementId) (member : Member) :
    (target.append id member).name = target.name := by
  cases member <;> rfl

/-- Insertion finds its aggregate, so no insertion fails. -/
theorem run_insertAll {target : TrackedAggregate} {replace : TrackedAggregate → TrackedModel}
    {place : Path} (h : session.model.FirstAggregate context aggregate target replace place) (members : List Member) :
    (insertAll context aggregate members).run session =
      .ok (List.range' session.next members.length)
        { model := replace (target.appendFrom session.next members), next := session.next + members.length } := by
  induction members generalizing session target with
  | nil =>
    rw [TrackedAggregate.appendFrom, h.replace_self]
    rfl
  | cons member members ih =>
    have hNext := @ih { model := replace (target.append session.next member), next := session.next + 1 } _
      (h.replaced (name_append target session.next member))
    rw [insertAll, EStateM.run_bind, run_insert h]
    simp only [EStateM.run_bind, hNext, List.length_cons, Nat.add_right_comm]
    rfl

end Editing

/-! ## Edits -/

/-- Both fail alike, and the session is as it was, or they bring the same. -/
inductive EditMirrors (session : Session) (edit : Edit) :
    Except EditError (Model × List Path) → EStateM.Result EditError Session (List ElementId) → Prop
  | refused (error : EditError) : EditMirrors session edit (.error error) (.error error session)
  | accepted {ids : List ElementId} {later : Session} {changed : Model} {paths : List Path}
      (hContents : later.contents = changed) (hExtends : edit.Extends session later ids)
      (hPlaces : List.Forall₂ (fun id path => (id, path) ∈ later.model.places) ids paths) :
      EditMirrors session edit (.ok (changed, paths)) (.ok ids later)

theorem Mirrors.single {session : Session} {edit : Edit} {outcome : Except Rejection (Model × Path)}
    {step : Editing Rejection ElementId} (h : Mirrors session edit outcome (step.run session)) :
    EditMirrors session edit (singleOutcome outcome) ((Editing.single step).run session) := by
  rw [Editing.single, EStateM.run_bind, EStateM.run_adaptExcept]
  generalize step.run session = result at h
  cases h with
  | refused rejection => exact .refused (.rejected rejection)
  | accepted hContents hExtends hPlace => exact .accepted hContents hExtends (.cons hPlace .nil)

namespace Editing

variable {session : Session} {context aggregate : String}

/-- The members that are given are `wrap` of values of one type, and so are those that are added. -/
theorem mirrors_addMembers {α : Type} (wrap : α → Member) (Normalizes : α → α → Prop) {kind : MemberKind}
    {given : List α} {mode : BatchMode} {edit : Edit} (hKind : ∀ value, (wrap value).kind = kind)
    (hWrap : ∀ value normal, (wrap value).NormalizesTo normal →
      ∃ result, normal = wrap result ∧ Normalizes value result)
    (hNone : given = [] → edit.Extends session session [])
    (hSome : ∀ target replace place added, session.model.FirstAggregate context aggregate target replace place →
      List.Forall₂ Normalizes given added →
      edit.Extends session
        { model := replace (target.appendFrom session.next (added.map wrap)), next := session.next + added.length }
        (List.range' session.next added.length)) :
    EditMirrors session edit (session.contents.addMembers context aggregate (given.map wrap) mode)
      ((addMembers context aggregate (given.map wrap) mode).run session) := by
  rw [addMembers, EStateM.run_bind, EStateM.run_get, Model.addMembers]
  dsimp only
  generalize hPrepared : session.contents.prepareAll context aggregate mode 0 [] (given.map wrap) = outcome
  obtain ⟨accepted, failures⟩ := outcome
  cases failures with
  | cons failure failures => exact .refused _
  | nil =>
    obtain ⟨added, rfl, hAdded⟩ := Model.exists_map_of_normalizesTo hWrap (Model.normalizesTo_of_prepareAll hPrepared)
    have hKinds : ∀ member ∈ added.map wrap, member.kind = kind := List.forall_mem_map.mpr fun value _ => hKind value
    cases given with
    | nil =>
      cases hAdded
      exact .accepted rfl (hNone rfl) .nil
    | cons value values =>
      obtain ⟨placed, found, hContext, hFound⟩ := Model.exists_found_of_prepareAll hPrepared
      obtain ⟨target, replace, place, hTarget⟩ := TrackedModel.exists_firstAggregate hContext hFound
      obtain ⟨replaceContents, hContents, hReplace⟩ := hTarget.contents
      have hPlaces := target.forall₂_places_appendFrom session.next hKinds
      dsimp only
      rw [EStateM.run_adaptExcept, run_insertAll hTarget, Session.contents, hContents.insertAll_eq hKinds]
      rw [List.length_map] at hPlaces ⊢
      refine .accepted ?_ (hSome _ _ _ added hTarget hAdded) ?_
      · rw [Session.contents, hReplace, target.contents_appendFrom]
      · rw [List.forall₂_map_right_iff] at hPlaces ⊢
        exact hPlaces.imp fun _ _ hPath => hTarget.mem_places hPath

theorem mirrors_edit (session : Session) (edit : Edit) :
    EditMirrors session edit (session.contents.edit edit) ((perform edit).run session) := by
  cases edit with
  | boundedContext name => exact (mirrors_addBoundedContext name).single
  | module context name => exact (mirrors_addModule context name).single
  | aggregate context module? name => exact (mirrors_addAggregate context module? name).single
  | member context aggregate member => exact (mirrors_addMember context aggregate member).single
  | entities context aggregate given mode =>
    refine mirrors_addMembers .entity Entity.NormalizesTo (fun _ => rfl) (fun entity normal hEntity => ?_) ?_ ?_
    · cases hEntity with
      | entity hEntity => exact ⟨_, rfl, hEntity⟩
    · rintro rfl
      exact .noEntities
    · intro target replace place added hTarget hAdded
      rw [target.appendFrom_entities]
      exact .entities hAdded hTarget
  | valueObjects context aggregate given mode =>
    refine mirrors_addMembers .valueObject DomainObject.NormalizesTo (fun _ => rfl) (fun object normal hObject => ?_)
      ?_ ?_
    · cases hObject with
      | valueObject hObject => exact ⟨_, rfl, hObject⟩
    · rintro rfl
      exact .noValueObjects
    · intro target replace place added hTarget hAdded
      rw [target.appendFrom_valueObjects]
      exact .valueObjects hAdded hTarget
  | relationship relationship => exact (mirrors_addRelationship relationship).single

end Editing

/-- The contents become what the edit makes of a plain model, and the new elements stand where it says. -/
theorem perform_contents (session : Session) (edit : Edit) :
    match session.contents.edit edit with
    | .error error => (Editing.perform edit).run session = .error error session
    | .ok (changed, paths) => ∃ ids later, (Editing.perform edit).run session = .ok ids later ∧
        later.contents = changed ∧ List.Forall₂ (fun id path => (id, path) ∈ later.model.places) ids paths := by
  have hMirrors := Editing.mirrors_edit session edit
  generalize session.contents.edit edit = outcome at hMirrors ⊢
  generalize (Editing.perform edit).run session = result at hMirrors ⊢
  cases hMirrors with
  | refused error => rfl
  | accepted hContents hExtends hPlaces => exact ⟨_, _, rfl, hContents, hPlaces⟩

namespace Session

theorem contents_after (session : Session) (edit : Edit) :
    (session.after edit).contents = session.contents.after edit := by
  have hContents := perform_contents session edit
  rw [after, Model.after]
  cases hEdit : session.contents.edit edit with
  | error error =>
    rw [hEdit] at hContents
    rw [hContents]
  | ok outcome =>
    obtain ⟨changed, paths⟩ := outcome
    rw [hEdit] at hContents
    obtain ⟨ids, later, hRun, hLater, -⟩ := hContents
    rw [hRun, hLater]

theorem contents_afterAll (session : Session) (edits : List Edit) :
    (session.afterAll edits).contents = session.contents.afterAll edits := by
  induction edits generalizing session with
  | nil => rfl
  | cons edit edits ih =>
    have hRest := ih (session.after edit)
    rw [contents_after] at hRest
    exact hRest

end Session

end DomainAtlas
