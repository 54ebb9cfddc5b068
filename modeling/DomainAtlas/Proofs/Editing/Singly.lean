import DomainAtlas.Proofs.Editing.Appending

/-! # Batches and single additions

The members of a batch are checked against the model as it was, with the names of those before them pending.
Members that are added singly are checked against what those before them have made of the model. Both ways refuse the
same members for the same reasons, and where none is refused they make the same of the model.
-/
set_option autoImplicit false

namespace DomainAtlas

/-- What comes of adding members singly: the model in the end, the paths of those that were added, and the refusals
with the indices of the members. -/
structure Singly where
  model : Model
  paths : List Path
  refusals : List (Nat × Rejection)

/-- Adds members one after another, those that are refused left out. Their indices count from `index`. -/
def Model.addSingly (model : Model) (context aggregate : String) (index : Nat) : List Member → Singly
  | [] => ⟨model, [], []⟩
  | member :: members =>
    match model.addMember context aggregate member with
    | .ok (changed, path) =>
      let others := changed.addSingly context aggregate (index + 1) members
      { others with paths := path :: others.paths }
    | .error rejection =>
      let others := model.addSingly context aggregate (index + 1) members
      { others with refusals := (index, rejection) :: others.refusals }

/-- Adding members singly is performing one edit after the other. -/
theorem model_addSingly (model : Model) (context aggregate : String) (index : Nat) (members : List Member) :
    (model.addSingly context aggregate index members).model =
      model.afterAll (members.map (Edit.member context aggregate)) := by
  induction members generalizing model index with
  | nil => rfl
  | cons member members ih =>
    rw [Model.addSingly, List.map_cons, Model.afterAll, List.foldl_cons, ← Model.afterAll, Model.after, Model.edit]
    cases model.addMember context aggregate member with
    | error rejection => exact ih model (index + 1)
    | ok outcome => exact ih outcome.1 (index + 1)

/-- The refusals that a batch gives when singly added members would be refused as `refusals` says. -/
def BatchMode.reported : BatchMode → List (Nat × Rejection) → List (Nat × Rejection)
  | failFast, refusals => refusals.take 1
  | collectAll, refusals => refusals

/-- What comes of a batch of `total` members, told by what comes of adding them singly. -/
def BatchMode.outcome (mode : BatchMode) (total : Nat) (singly : Singly) : Except EditError (Model × List Path) :=
  match singly.refusals with
  | [] => .ok (singly.model, singly.paths)
  | first :: others => .error (.batch total (mode.reported (first :: others)))

/-! ## What an added member changes for those behind it -/

theorem filter_domainObjects_append {member : Member} {name : String} (target : Aggregate) (h : name ≠ member.name) :
    (target.append member).domainObjects.filter (fun object => object.2 == name) =
      target.domainObjects.filter fun object => object.2 == name := by
  have hOther : (member.name == name) = false := beq_eq_false_iff_ne.mpr (Ne.symm h)
  cases member <;> rw [Member.name] at hOther <;>
    simp [Aggregate.append, Aggregate.domainObjects, List.filter_append, hOther]

theorem find?_occurrences_append {context : String} {found : PlacedAggregate} {member : Member} {name : String}
    (h : name ≠ member.name) :
    (PlacedAggregate.occurrences context { found with aggregate := found.aggregate.append member }).find?
        (fun entry => entry.1 == name) =
      (found.occurrences context).find? fun entry => entry.1 == name := by
  simp only [PlacedAggregate.occurrences, List.find?_map, Function.comp_def, name_append]
  rw [← List.head?_filter, ← List.head?_filter, filter_domainObjects_append found.aggregate h]

theorem BoundedContext.FirstAggregate.placedAggregates_replace {context : BoundedContext} {name : String}
    {target : Aggregate} {replace : Aggregate → BoundedContext} {place : Path}
    (h : context.FirstAggregate name target replace place) :
    ∃ (front : List PlacedAggregate) (found : PlacedAggregate) (back : List PlacedAggregate),
      found.aggregate = target ∧
        ∀ changed, (replace changed).placedAggregates = front ++ { found with aggregate := changed } :: back := by
  cases h with
  | @direct front back _ h =>
    let place := fun (entry : Aggregate × Nat) => (⟨.direct entry.2, none, entry.1⟩ : PlacedAggregate)
    refine ⟨front.zipIdx.map place, place (target, front.length), (back.zipIdx (front.length + 1)).map place ++
      context.modules.zipIdx.flatMap (fun entry => entry.1.placedAggregates entry.2), rfl, fun changed => ?_⟩
    rw [placedAggregates, List.zipIdx_append, List.zipIdx_cons, List.map_append, List.map_cons, List.append_assoc,
      List.cons_append, Nat.zero_add]
  | @inModule modulesFront modulesBack module front back _ hDirect hModule h =>
    let place := fun (entry : Aggregate × Nat) =>
      (⟨.inModule modulesFront.length entry.2, some module.name, entry.1⟩ : PlacedAggregate)
    let placeAll := fun (entry : Module × Nat) => entry.1.placedAggregates entry.2
    refine ⟨context.aggregates.zipIdx.map (fun entry => ⟨.direct entry.2, none, entry.1⟩) ++
        (modulesFront.zipIdx.flatMap placeAll ++ front.zipIdx.map place), place (target, front.length),
      (back.zipIdx (front.length + 1)).map place ++
        (modulesBack.zipIdx (modulesFront.length + 1)).flatMap placeAll, rfl, fun changed => ?_⟩
    rw [placedAggregates, List.zipIdx_append, List.zipIdx_cons, List.flatMap_append, List.flatMap_cons,
      Module.placedAggregates, List.zipIdx_append, List.zipIdx_cons, List.map_append, List.map_cons, Nat.zero_add,
      Nat.zero_add]
    simp only [List.append_assoc, List.cons_append]
    rfl

namespace Model

variable {model : Model} {context aggregate : String} {target : Aggregate} {replace : Aggregate → Model} {place : Path}

theorem FirstAggregate.occurrences_replace (h : model.FirstAggregate context aggregate target replace place) :
    ∃ (front : List (String × Occurrence)) (found : PlacedAggregate) (back : List (String × Occurrence)),
      found.aggregate = target ∧
        ∀ changed, (replace changed).occurrences =
          front ++ (PlacedAggregate.occurrences context { found with aggregate := changed } ++ back) := by
  cases h with
  | @mk front back owner _ replaceIn _ hOwner h =>
    obtain ⟨placedFront, found, placedBack, hFound, hReplace⟩ := h.placedAggregates_replace
    refine ⟨front.flatMap BoundedContext.occurrences ++ placedFront.flatMap (PlacedAggregate.occurrences context),
      found, placedBack.flatMap (PlacedAggregate.occurrences context) ++ back.flatMap BoundedContext.occurrences,
      hFound, fun changed => ?_⟩
    have hName : (replaceIn changed).name = context := (h.name_replace changed).trans hOwner.holds
    have hContext : (replaceIn changed).occurrences =
        placedFront.flatMap (PlacedAggregate.occurrences context) ++
          (PlacedAggregate.occurrences context { found with aggregate := changed } ++
            placedBack.flatMap (PlacedAggregate.occurrences context)) := by
      rw [BoundedContext.occurrences, hName, hReplace, List.flatMap_append, List.flatMap_cons]
    rw [occurrences, List.flatMap_append, List.flatMap_cons, hContext]
    simp only [List.append_assoc]

/-- Only the name of the new member gets a first use. -/
theorem FirstAggregate.firstOccurrence?_append (h : model.FirstAggregate context aggregate target replace place)
    {member : Member} {name : String} (hName : name ≠ member.name) :
    (replace (target.append member)).firstOccurrence? name = model.firstOccurrence? name := by
  obtain ⟨front, found, back, rfl, hReplace⟩ := h.occurrences_replace
  have hModel : model.occurrences = front ++ (found.occurrences context ++ back) := by
    rw [← hReplace, h.replace_self]
  rw [firstOccurrence?, firstOccurrence?, hReplace, hModel, List.find?_append, List.find?_append, List.find?_append,
    List.find?_append, find?_occurrences_append hName]

theorem FirstAggregate.requireAggregate (h : model.FirstAggregate context aggregate target replace place) :
    ∃ placed found, model.requireAggregate context aggregate = .ok (placed, found) ∧ found.aggregate = target := by
  cases h with
  | mk hOwner h =>
    obtain ⟨found, hFound, hTarget, -⟩ := h.findAggregate?
    exact ⟨_, found, requireAggregate_eq_ok.mpr ⟨findContext?_of_firstWith hOwner, hFound⟩, hTarget⟩

/-- To a member of the same kind it is all one whether another is in the list already or its name is pending. -/
theorem FirstAggregate.prepare_append (h : model.FirstAggregate context aggregate target replace place)
    {added member : Member} (hKind : added.kind = member.kind) (pending : List String) :
    (replace (target.append added)).prepare context aggregate pending member =
      model.prepare context aggregate (added.name :: pending) member := by
  obtain ⟨placed, found, hOld, hFound⟩ := h.requireAggregate
  obtain ⟨placed', found', hNew, hFound'⟩ := (h.replaced (name_append target added)).requireAggregate
  unfold prepare
  refine bind_congr fun name => bind_congr fun _ => bind_congr fun normal => ?_
  rw [hOld, hNew]
  have hTaken : name ∈ member.kind.names found'.aggregate ∨ name ∈ pending ↔
      name ∈ member.kind.names found.aggregate ∨ name ∈ added.name :: pending := by
    rw [hFound', hFound, names_append target hKind, List.mem_append, List.mem_singleton, List.mem_cons, or_assoc]
  by_cases hName : name ∈ member.kind.names found.aggregate ∨ name ∈ added.name :: pending
  · simp only [bind, Except.bind, if_pos hName, if_pos (hTaken.mpr hName)]
    rfl
  · have hOther : name ≠ added.name := fun hSame => hName (.inr (hSame ▸ List.mem_cons_self))
    simp only [bind, Except.bind, if_neg hName, if_neg (mt hTaken.mp hName), h.firstOccurrence?_append hOther]

/-! ## Batches -/

/-- `grown` is what the members of a batch that were accepted so far make of `model`, and `pending` are their names. -/
theorem prepareAll_eq_addSingly {grown : Model} {mode : BatchMode} {kind : MemberKind} {index : Nat}
    {pending : List String} {members : List Member} (hKind : ∀ member ∈ members, member.kind = kind)
    (hAgrees : ∀ more member, member.kind = kind →
      grown.prepare context aggregate more member = model.prepare context aggregate (pending ++ more) member) :
    (model.prepareAll context aggregate mode index pending members).2 =
        mode.reported (grown.addSingly context aggregate index members).refusals ∧
      ((grown.addSingly context aggregate index members).refusals = [] →
        grown.insertAll context aggregate (model.prepareAll context aggregate mode index pending members).1 =
          .ok ((grown.addSingly context aggregate index members).model,
            (grown.addSingly context aggregate index members).paths)) := by
  induction members generalizing grown index pending with
  | nil => cases mode <;> exact ⟨rfl, fun _ => rfl⟩
  | cons member members ih =>
    obtain ⟨hMember, hOthers⟩ := List.forall_mem_cons.mp hKind
    have hPrepare := hAgrees [] member hMember
    rw [List.append_nil] at hPrepare
    rw [prepareAll, addSingly, addMember, hPrepare]
    cases hPrepared : model.prepare context aggregate pending member with
    | error rejection =>
      have hRest := @ih grown (index + 1) pending hOthers hAgrees
      cases mode with
      | failFast => exact ⟨rfl, fun hNone => by cases hNone⟩
      | collectAll => exact ⟨congrArg _ hRest.1, fun hNone => by cases hNone⟩
    | ok prepared =>
      rw [hPrepared] at hPrepare
      obtain ⟨_, placed, found, -, -, -, -, hContext, hFound, -⟩ := prepare_eq_ok hPrepare
      obtain ⟨target, replace, place, hTarget⟩ := exists_firstAggregate hContext hFound
      have hPreparedKind : prepared.kind = kind := (normalizesTo_of_prepare hPrepare).kind_eq.trans hMember
      have hAgrees' : ∀ more member, member.kind = kind →
          (replace (target.append prepared)).prepare context aggregate more member =
            model.prepare context aggregate (pending ++ [prepared.name] ++ more) member := by
        intro more other hOther
        rw [hTarget.prepare_append (hPreparedKind.trans hOther.symm), hAgrees _ other hOther, List.append_assoc,
          List.singleton_append]
      obtain ⟨hRefusals, hInserted⟩ := @ih _ (index + 1) _ hOthers hAgrees'
      have hInsert := hTarget.insert_eq prepared
      simp only [bind, Except.bind, hInsert]
      refine ⟨hRefusals, fun hNone => ?_⟩
      rw [insertAll, hInsert]
      simp only [bind, Except.bind, hInserted hNone]
      rfl

theorem addMembers_eq_outcome {members : List Member} {kind : MemberKind} (mode : BatchMode)
    (hKind : ∀ member ∈ members, member.kind = kind) :
    model.addMembers context aggregate members mode =
      mode.outcome members.length (model.addSingly context aggregate 0 members) := by
  obtain ⟨hRefusals, hInserted⟩ := @prepareAll_eq_addSingly model context aggregate model mode kind 0 [] members hKind
    fun _ _ _ => rfl
  unfold addMembers BatchMode.outcome
  generalize model.prepareAll context aggregate mode 0 [] members = prepared at hRefusals hInserted
  obtain ⟨accepted, failures⟩ := prepared
  cases hSingly : (model.addSingly context aggregate 0 members).refusals with
  | nil =>
    rw [hSingly] at hRefusals
    obtain rfl : failures = [] := hRefusals.trans (by cases mode <;> rfl)
    simp only [hInserted hSingly]
    rfl
  | cons first others =>
    rw [hSingly] at hRefusals
    obtain rfl : failures = mode.reported (first :: others) := hRefusals
    cases mode <;> rfl

end Model

theorem edit_batch_eq_outcome_addSingly (model : Model) (context aggregate : String) (mode : BatchMode) :
    (∀ entities : List Entity,
      model.edit (.entities context aggregate entities mode) =
        mode.outcome entities.length (model.addSingly context aggregate 0 (entities.map .entity))) ∧
    ∀ objects : List DomainObject,
      model.edit (.valueObjects context aggregate objects mode) =
        mode.outcome objects.length (model.addSingly context aggregate 0 (objects.map .valueObject)) := by
  constructor
  · intro entities
    have hKind : ∀ member ∈ entities.map Member.entity, member.kind = .entity :=
      List.forall_mem_map.mpr fun _ _ => rfl
    rw [Model.edit, Model.addMembers_eq_outcome mode hKind, List.length_map]
  · intro objects
    have hKind : ∀ member ∈ objects.map Member.valueObject, member.kind = .valueObject :=
      List.forall_mem_map.mpr fun _ _ => rfl
    rw [Model.edit, Model.addMembers_eq_outcome mode hKind, List.length_map]

end DomainAtlas
