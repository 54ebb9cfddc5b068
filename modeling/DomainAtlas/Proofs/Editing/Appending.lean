import DomainAtlas.Proofs.Editing.NormalForms
import DomainAtlas.Proofs.Editing.Targets

/-! # What edits append

An accepted edit appends what it brings to one list, in order, and leaves everything else as it is. A batch is inserted
member by member: once all its members are prepared, no insertion fails.
-/
set_option autoImplicit false

namespace DomainAtlas

/-! ## What is appended, and where -/

/-- What an accepted edit makes of `model`, and the paths of the new elements. The names `context`, `module?` and
`aggregate` of an edit mean the first element that is called so. -/
inductive Edit.Appends (model : Model) : Edit → Model → List Path → Prop
  | boundedContext {raw name : String} (hName : NameOf raw name) :
      Appends model (.boundedContext raw)
        { model with boundedContexts := model.boundedContexts ++ [{ name }] }
        [[(.boundedContexts, model.boundedContexts.length)]]
  | module {context raw name : String} {front back : List BoundedContext} {owner : BoundedContext}
      (hName : NameOf raw name) (hOwner : FirstWith (·.name = context) model.boundedContexts front owner back) :
      Appends model (.module context raw)
        { model with
          boundedContexts := front ++ { owner with modules := owner.modules ++ [{ name }] } :: back }
        [[(.boundedContexts, front.length), (.modules, owner.modules.length)]]
  | aggregate {context raw name : String} {front back : List BoundedContext} {owner : BoundedContext}
      (hName : NameOf raw name) (hOwner : FirstWith (·.name = context) model.boundedContexts front owner back) :
      Appends model (.aggregate context none raw)
        { model with
          boundedContexts := front ++ { owner with aggregates := owner.aggregates ++ [{ name }] } :: back }
        [[(.boundedContexts, front.length), (.aggregates, owner.aggregates.length)]]
  | moduleAggregate {context module raw name : String} {front back : List BoundedContext} {owner : BoundedContext}
      {modulesFront modulesBack : List Module} {target : Module} (hName : NameOf raw name)
      (hOwner : FirstWith (·.name = context) model.boundedContexts front owner back)
      (hTarget : FirstWith (·.name = module) owner.modules modulesFront target modulesBack) :
      Appends model (.aggregate context (some module) raw)
        { model with
          boundedContexts := front ++ { owner with
            modules := modulesFront ++ { target with aggregates := target.aggregates ++ [{ name }] } ::
              modulesBack } :: back }
        [[(.boundedContexts, front.length), (.modules, modulesFront.length), (.aggregates, target.aggregates.length)]]
  | member {context aggregate : String} {given added : Member} {target : Aggregate} {replace : Aggregate → Model}
      {place : Path} (hNormal : given.NormalizesTo added)
      (hTarget : model.FirstAggregate context aggregate target replace place) :
      Appends model (.member context aggregate given) (replace (target.append added))
        [place ++ [(added.kind.field, (added.kind.names target).length)]]
  | entities {context aggregate : String} {given added : List Entity} {mode : BatchMode} {target : Aggregate}
      {replace : Aggregate → Model} {place : Path} (hNormal : List.Forall₂ Entity.NormalizesTo given added)
      (hTarget : model.FirstAggregate context aggregate target replace place) :
      Appends model (.entities context aggregate given mode)
        (replace { target with entities := target.entities ++ added })
        ((List.range' target.entities.length added.length).map fun index => place ++ [(.entities, index)])
  | valueObjects {context aggregate : String} {given added : List DomainObject} {mode : BatchMode}
      {target : Aggregate} {replace : Aggregate → Model} {place : Path}
      (hNormal : List.Forall₂ DomainObject.NormalizesTo given added)
      (hTarget : model.FirstAggregate context aggregate target replace place) :
      Appends model (.valueObjects context aggregate given mode)
        (replace { target with valueObjects := target.valueObjects ++ added })
        ((List.range' target.valueObjects.length added.length).map fun index => place ++ [(.valueObjects, index)])
  /-- A batch without elements is accepted whether or not its aggregate is there. -/
  | noEntities {context aggregate : String} {mode : BatchMode} :
      Appends model (.entities context aggregate [] mode) model []
  | noValueObjects {context aggregate : String} {mode : BatchMode} :
      Appends model (.valueObjects context aggregate [] mode) model []
  | relationship {relationship : Relationship} :
      Appends model (.relationship relationship)
        { model with
          contextMap := some { model.contextMap.getD {} with
            relationships := (model.contextMap.getD {}).relationships ++ [relationship] } }
        [[(.relationships, (model.contextMap.getD {}).relationships.length)]]

namespace Model

variable {model changed : Model} {context aggregate raw : String} {path : Path} {paths : List Path}

/-! ## One element -/

theorem appends_of_addBoundedContext (h : model.addBoundedContext raw = .ok (changed, path)) :
    (Edit.boundedContext raw).Appends model changed [path] := by
  obtain ⟨name, hName, -, rfl, rfl⟩ := addBoundedContext_eq_ok h
  exact .boundedContext (checkedName_eq_ok.mp hName)

theorem appends_of_addModule (h : model.addModule context raw = .ok (changed, path)) :
    (Edit.module context raw).Appends model changed [path] := by
  obtain ⟨name, placed, hName, hPlaced, -, rfl, rfl⟩ := addModule_eq_ok h
  obtain ⟨front, back, hOwner, hIndex⟩ := exists_firstContext hPlaced
  rw [PlacedContext.path, hIndex, modifyContext, hOwner.modify_eq]
  exact .module (checkedName_eq_ok.mp hName) hOwner

theorem appends_of_addAggregate {module? : Option String}
    (h : model.addAggregate context module? raw = .ok (changed, path)) :
    (Edit.aggregate context module? raw).Appends model changed [path] := by
  obtain ⟨name, hName, h⟩ := bind_eq_ok.mp h
  obtain ⟨_, -, h⟩ := bind_eq_ok.mp h
  obtain ⟨placed, hPlaced, h⟩ := bind_eq_ok.mp h
  obtain ⟨-, h⟩ := unless_eq_ok.mp h
  obtain ⟨front, back, hOwner, hIndex⟩ := exists_firstContext (requireContext_eq_ok.mp hPlaced)
  have hChecked := checkedName_eq_ok.mp hName
  cases module? with
  | none =>
    cases h
    rw [PlacedContext.path, hIndex, modifyContext, hOwner.modify_eq]
    exact .aggregate hChecked hOwner
  | some module =>
    dsimp only at h
    split at h
    · cases h
    · rename_i found index hFound
      cases h
      have hSame := List.find?_some hFound
      have hSome : ∃ other ∈ placed.context.modules, other.name = module :=
        ⟨found, List.fst_mem_of_mem_zipIdx (List.mem_of_find?_eq_some hFound), beq_iff_eq.mp hSame⟩
      obtain ⟨modulesFront, target, modulesBack, hTarget⟩ := exists_firstWith hSome
      rw [hTarget.find?_zipIdx (fun entry => entry.1.name == module) fun _ _ => beq_iff_eq] at hFound
      cases hFound
      rw [PlacedContext.path, hIndex, modifyContext, hOwner.modify_eq, hTarget.modify_eq]
      exact .moduleAggregate hChecked hOwner hTarget

theorem appends_of_addMember {member : Member} (h : model.addMember context aggregate member = .ok (changed, path)) :
    (Edit.member context aggregate member).Appends model changed [path] := by
  obtain ⟨prepared, hPrepared, hInsert⟩ := bind_eq_ok.mp h
  obtain ⟨_, placed, found, -, -, -, -, hContext, hFound, -⟩ := prepare_eq_ok hPrepared
  obtain ⟨target, replace, place, hTarget⟩ := exists_firstAggregate hContext hFound
  rw [hTarget.insert_eq] at hInsert
  cases hInsert
  exact .member (normalizesTo_of_prepare hPrepared) hTarget

theorem appends_of_addRelationship {relationship : Relationship}
    (h : model.addRelationship relationship = .ok (changed, path)) :
    (Edit.relationship relationship).Appends model changed [path] := by
  obtain ⟨-, -, -, rfl, rfl⟩ := addRelationship_eq_ok h
  exact .relationship

/-! ## Batches -/

theorem names_append {member : Member} {kind : MemberKind} (target : Aggregate) (h : member.kind = kind) :
    kind.names (target.append member) = kind.names target ++ [member.name] := by
  subst h
  cases member <;> simp [Member.kind, Member.name, MemberKind.names, Aggregate.append]

/-- Insertion finds its aggregate, so no insertion fails: the members go to the end of one list. -/
theorem FirstAggregate.insertAll_eq {target : Aggregate} {replace : Aggregate → Model} {place : Path}
    (h : model.FirstAggregate context aggregate target replace place) {kind : MemberKind} {members : List Member}
    (hKind : ∀ member ∈ members, member.kind = kind) :
    model.insertAll context aggregate members =
      .ok (replace (members.foldl Aggregate.append target),
        (List.range' (kind.names target).length members.length).map fun index => place ++ [(kind.field, index)]) := by
  induction members generalizing model target with
  | nil =>
    rw [insertAll, List.foldl_nil, h.replace_self]
    rfl
  | cons member members ih =>
    obtain ⟨rfl, hOthers⟩ := List.forall_mem_cons.mp hKind
    have hNext := ih (h.replaced (name_append target member)) hOthers
    rw [names_append target rfl, List.length_append] at hNext
    rw [insertAll, h.insert_eq]
    simp only [hNext, bind, Except.bind]
    rfl

/-- What becomes of a batch of members of one kind: nothing if it is empty, and else they are in one list. -/
def Inserts (model : Model) (context aggregate : String) (kind : MemberKind) (members : List Member) (final : Model)
    (paths : List Path) : Prop :=
  (members = [] ∧ final = model ∧ paths = []) ∨
    ∃ target replace place, model.FirstAggregate context aggregate target replace place ∧
      final = replace (members.foldl Aggregate.append target) ∧
      paths = (List.range' (kind.names target).length members.length).map fun index => place ++ [(kind.field, index)]

/-- A member is prepared for an aggregate that is there. -/
theorem exists_found_of_prepareAll {mode : BatchMode} {index : Nat} {pending : List String} {member : Member}
    {members accepted : List Member}
    (h : model.prepareAll context aggregate mode index pending (member :: members) = (accepted, [])) :
    ∃ placed found, model.findContext? context = some placed ∧
      placed.context.findAggregate? aggregate = some found := by
  rw [prepareAll] at h
  split at h
  · rename_i prepared hPrepared
    obtain ⟨_, placed, found, -, -, -, -, hContext, hFound, -⟩ := prepare_eq_ok hPrepared
    exact ⟨placed, found, hContext, hFound⟩
  · cases mode <;> cases h

theorem kind_eq_of_normalizesTo {kind : MemberKind} {given normal : List Member}
    (h : List.Forall₂ Member.NormalizesTo given normal) (hKind : ∀ member ∈ given, member.kind = kind) :
    ∀ member ∈ normal, member.kind = kind := by
  induction h with
  | nil => exact fun _ hMem => absurd hMem List.not_mem_nil
  | cons hMember _ ih =>
    obtain ⟨hFirst, hOthers⟩ := List.forall_mem_cons.mp hKind
    exact List.forall_mem_cons.mpr ⟨hMember.kind_eq.trans hFirst, ih hOthers⟩

theorem inserts_of_prepareAll {mode : BatchMode} {index : Nat} {pending : List String}
    {members accepted : List Member} {kind : MemberKind} (hKind : ∀ member ∈ members, member.kind = kind)
    (h : model.prepareAll context aggregate mode index pending members = (accepted, [])) :
    ∃ final paths, model.insertAll context aggregate accepted = .ok (final, paths) ∧
      model.Inserts context aggregate kind accepted final paths := by
  have hKinds := kind_eq_of_normalizesTo (normalizesTo_of_prepareAll h) hKind
  cases members with
  | nil =>
    cases h
    exact ⟨model, [], rfl, .inl ⟨rfl, rfl, rfl⟩⟩
  | cons member members =>
    obtain ⟨placed, found, hContext, hFound⟩ := exists_found_of_prepareAll h
    obtain ⟨target, replace, place, hTarget⟩ := exists_firstAggregate hContext hFound
    exact ⟨_, _, hTarget.insertAll_eq hKinds, .inr ⟨target, replace, place, hTarget, rfl, rfl⟩⟩

theorem foldl_append_entities (target : Aggregate) (added : List Entity) :
    (added.map Member.entity).foldl Aggregate.append target =
      { target with entities := target.entities ++ added } := by
  induction added generalizing target with
  | nil => simp
  | cons entity others ih => simp [ih, Aggregate.append]

theorem foldl_append_valueObjects (target : Aggregate) (added : List DomainObject) :
    (added.map Member.valueObject).foldl Aggregate.append target =
      { target with valueObjects := target.valueObjects ++ added } := by
  induction added generalizing target with
  | nil => simp
  | cons object others ih => simp [ih, Aggregate.append]

/-- The normal forms of members of one kind are of this kind. -/
theorem exists_map_of_normalizesTo {α : Type} {wrap : α → Member} {Normalizes : α → α → Prop}
    (hWrap : ∀ value normal, (wrap value).NormalizesTo normal →
      ∃ result, normal = wrap result ∧ Normalizes value result)
    {given : List α} {accepted : List Member} (h : List.Forall₂ Member.NormalizesTo (given.map wrap) accepted) :
    ∃ added, accepted = added.map wrap ∧ List.Forall₂ Normalizes given added := by
  induction given generalizing accepted with
  | nil =>
    cases h
    exact ⟨[], rfl, .nil⟩
  | cons value given ih =>
    obtain ⟨normal, others, hFirst, hOthers, rfl⟩ := List.forall₂_cons_left_iff.mp h
    obtain ⟨result, rfl, hResult⟩ := hWrap value normal hFirst
    obtain ⟨added, rfl, hAdded⟩ := ih hOthers
    exact ⟨result :: added, rfl, .cons hResult hAdded⟩

theorem addMembers_map_eq_ok {α : Type} (wrap : α → Member) {Normalizes : α → α → Prop} {kind : MemberKind}
    {given : List α} {mode : BatchMode} (hKind : ∀ value, (wrap value).kind = kind)
    (hWrap : ∀ value normal, (wrap value).NormalizesTo normal →
      ∃ result, normal = wrap result ∧ Normalizes value result)
    (h : model.addMembers context aggregate (given.map wrap) mode = .ok (changed, paths)) :
    ∃ added, List.Forall₂ Normalizes given added ∧
      model.Inserts context aggregate kind (added.map wrap) changed paths := by
  unfold addMembers at h
  split at h
  · rename_i accepted hPrepared
    have hKinds : ∀ member ∈ given.map wrap, member.kind = kind := List.forall_mem_map.mpr fun value _ => hKind value
    obtain ⟨final, finalPaths, hAll, hInserts⟩ := inserts_of_prepareAll hKinds hPrepared
    rw [hAll] at h
    cases h
    obtain ⟨added, rfl, hAdded⟩ := exists_map_of_normalizesTo hWrap (normalizesTo_of_prepareAll hPrepared)
    exact ⟨added, hAdded, hInserts⟩
  · cases h

theorem appends_of_addEntities {given : List Entity} {mode : BatchMode}
    (h : model.addMembers context aggregate (given.map .entity) mode = .ok (changed, paths)) :
    (Edit.entities context aggregate given mode).Appends model changed paths := by
  have hWrap : ∀ entity normal, (Member.entity entity).NormalizesTo normal →
      ∃ result, normal = .entity result ∧ entity.NormalizesTo result := by
    intro entity normal hEntity
    cases hEntity with
    | entity hEntity => exact ⟨_, rfl, hEntity⟩
  obtain ⟨added, hAdded, hInserts⟩ := addMembers_map_eq_ok .entity (fun _ => rfl) hWrap h
  rcases hInserts with ⟨hNone, rfl, rfl⟩ | ⟨target, replace, place, hTarget, rfl, rfl⟩
  · obtain rfl := List.map_eq_nil_iff.mp hNone
    cases hAdded
    exact .noEntities
  · rw [foldl_append_entities, MemberKind.names, List.length_map, List.length_map]
    exact .entities hAdded hTarget

theorem appends_of_addValueObjects {given : List DomainObject} {mode : BatchMode}
    (h : model.addMembers context aggregate (given.map .valueObject) mode = .ok (changed, paths)) :
    (Edit.valueObjects context aggregate given mode).Appends model changed paths := by
  have hWrap : ∀ object normal, (Member.valueObject object).NormalizesTo normal →
      ∃ result, normal = .valueObject result ∧ object.NormalizesTo result := by
    intro object normal hObject
    cases hObject with
    | valueObject hObject => exact ⟨_, rfl, hObject⟩
  obtain ⟨added, hAdded, hInserts⟩ := addMembers_map_eq_ok .valueObject (fun _ => rfl) hWrap h
  rcases hInserts with ⟨hNone, rfl, rfl⟩ | ⟨target, replace, place, hTarget, rfl, rfl⟩
  · obtain rfl := List.map_eq_nil_iff.mp hNone
    cases hAdded
    exact .noValueObjects
  · rw [foldl_append_valueObjects, MemberKind.names, List.length_map, List.length_map]
    exact .valueObjects hAdded hTarget

theorem appends_of_edit {edit : Edit} (h : model.edit edit = .ok (changed, paths)) :
    edit.Appends model changed paths := by
  cases edit with
  | boundedContext name =>
    obtain ⟨path, hAdd, rfl⟩ := singleOutcome_eq_ok h
    exact appends_of_addBoundedContext hAdd
  | module context name =>
    obtain ⟨path, hAdd, rfl⟩ := singleOutcome_eq_ok h
    exact appends_of_addModule hAdd
  | aggregate context module? name =>
    obtain ⟨path, hAdd, rfl⟩ := singleOutcome_eq_ok h
    exact appends_of_addAggregate hAdd
  | member context aggregate member =>
    obtain ⟨path, hAdd, rfl⟩ := singleOutcome_eq_ok h
    exact appends_of_addMember hAdd
  | entities context aggregate entities mode => exact appends_of_addEntities h
  | valueObjects context aggregate objects mode => exact appends_of_addValueObjects h
  | relationship relationship =>
    obtain ⟨path, hAdd, rfl⟩ := singleOutcome_eq_ok h
    exact appends_of_addRelationship hAdd

end Model

end DomainAtlas
