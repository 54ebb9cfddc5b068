import DomainAtlas.Editing.Edit

/-! # What an edit does

For each edit, what it has checked when it succeeds, and the model and the paths that it then gives.
-/
set_option autoImplicit false

namespace DomainAtlas

section Outcomes

variable {ε α β : Type} {result : β}

theorem bind_eq_ok {x : Except ε α} {next : α → Except ε β} :
    x >>= next = .ok result ↔ ∃ value, x = .ok value ∧ next value = .ok result := by
  constructor
  · intro h
    cases x with
    | error error => cases h
    | ok value => exact ⟨value, rfl, h⟩
  · rintro ⟨value, rfl, h⟩
    exact h

theorem map_eq_ok {f : α → β} {x : Except ε α} :
    f <$> x = .ok result ↔ ∃ value, x = .ok value ∧ f value = result := by
  cases x with
  | error error => simp [Functor.map, Except.map]
  | ok value => simp [Functor.map, Except.map]

/-- A refusal, unless there is no reason for it. -/
theorem unless_eq_ok {reason : Prop} [Decidable reason] {error : ε} {next : Unit → Except ε β} :
    (if reason then (throw error : Except ε Unit) >>= next else next ()) = .ok result ↔
      ¬ reason ∧ next () = .ok result := by
  by_cases hReason : reason
  · rw [if_pos hReason]
    constructor
    · intro h
      cases h
    · rintro ⟨hNot, -⟩
      exact absurd hReason hNot
  · rw [if_neg hReason]
    exact (and_iff_right hReason).symm

end Outcomes

theorem refuseReserved_eq_ok {name : String} {nothing : Unit} :
    refuseReserved name = .ok nothing ↔ reservedSpelling? name = none := by
  unfold refuseReserved
  split
  · rename_i reserved hReserved
    simp [hReserved]
  · rename_i hNone
    simp [hNone]

/-- Adds an empty aggregate, in the module at the place that is given if any. -/
def BoundedContext.appendAggregate (target : BoundedContext) (name : String) : Option Nat → BoundedContext
  | none => { target with aggregates := target.aggregates ++ [{ name }] }
  | some index =>
    { target with
      modules := target.modules.modify index fun changed =>
        { changed with aggregates := changed.aggregates ++ [{ name }] } }

theorem Member.kind_rename (member : Member) (name : String) : (member.rename name).kind = member.kind := by
  cases member <;> rfl

theorem Member.name_rename (member : Member) (name : String) : (member.rename name).name = name := by
  cases member <;> rfl

theorem name_append (aggregate : Aggregate) (member : Member) :
    (aggregate.append member).name = aggregate.name := by
  cases member <;> rfl

theorem Member.kind_normalize {member normal : Member} (h : member.normalize = .ok normal) :
    normal.kind = member.kind := by
  cases member <;> obtain ⟨content, -, rfl⟩ := map_eq_ok.mp h <;> rfl

namespace Model

variable {model changed : Model} {context aggregate raw : String} {path : Path}

theorem requireContext_eq_ok {placed : PlacedContext} :
    model.requireContext context = .ok placed ↔ model.findContext? context = some placed := by
  unfold requireContext
  split
  · rename_i found hFound
    simp [hFound]
  · rename_i hNone
    simp [hNone]

theorem requireAggregate_eq_ok {placed : PlacedContext} {found : PlacedAggregate} :
    model.requireAggregate context aggregate = .ok (placed, found) ↔
      model.findContext? context = some placed ∧ placed.context.findAggregate? aggregate = some found := by
  rw [requireAggregate, bind_eq_ok]
  constructor
  · rintro ⟨other, hContext, h⟩
    rw [requireContext_eq_ok] at hContext
    split at h
    · rename_i hFound
      cases h
      exact ⟨hContext, hFound⟩
    · cases h
  · rintro ⟨hContext, hFound⟩
    exact ⟨placed, requireContext_eq_ok.mpr hContext, by rw [hFound]; rfl⟩

theorem addBoundedContext_eq_ok (h : model.addBoundedContext raw = .ok (changed, path)) :
    ∃ name, checkedName raw = .ok name ∧ model.hasContext name = false ∧
      changed = { model with boundedContexts := model.boundedContexts ++ [{ name }] } ∧
      path = [(.boundedContexts, model.boundedContexts.length)] := by
  obtain ⟨name, hName, h⟩ := bind_eq_ok.mp h
  obtain ⟨hNew, h⟩ := unless_eq_ok.mp h
  cases h
  exact ⟨name, hName, Bool.eq_false_iff.mpr hNew, rfl, rfl⟩

theorem addModule_eq_ok (h : model.addModule context raw = .ok (changed, path)) :
    ∃ name placed, checkedName raw = .ok name ∧ model.findContext? context = some placed ∧
      (∀ module ∈ placed.context.modules, module.name ≠ name) ∧
      changed = model.modifyContext placed.index
        (fun target => { target with modules := target.modules ++ [{ name }] }) ∧
      path = placed.path ++ [(.modules, placed.context.modules.length)] := by
  obtain ⟨name, hName, h⟩ := bind_eq_ok.mp h
  obtain ⟨placed, hPlaced, h⟩ := bind_eq_ok.mp h
  obtain ⟨hNew, h⟩ := unless_eq_ok.mp h
  cases h
  refine ⟨name, placed, hName, requireContext_eq_ok.mp hPlaced, fun module hModule hSame => hNew ?_, rfl, rfl⟩
  exact List.any_eq_true.mpr ⟨module, hModule, beq_iff_eq.mpr hSame⟩

theorem addAggregate_eq_ok {module? : Option String}
    (h : model.addAggregate context module? raw = .ok (changed, path)) :
    ∃ name placed position, checkedName raw = .ok name ∧ reservedSpelling? name = none ∧
      model.findContext? context = some placed ∧ placed.context.hasAggregate name = false ∧
      (∀ index ∈ position, ∃ found, (found, index) ∈ placed.context.modules.zipIdx ∧ some found.name = module?) ∧
      changed = model.modifyContext placed.index fun target => target.appendAggregate name position := by
  obtain ⟨name, hName, h⟩ := bind_eq_ok.mp h
  obtain ⟨_, hReserved, h⟩ := bind_eq_ok.mp h
  obtain ⟨placed, hPlaced, h⟩ := bind_eq_ok.mp h
  obtain ⟨hNew, h⟩ := unless_eq_ok.mp h
  have hChecked := refuseReserved_eq_ok.mp hReserved
  have hContext := requireContext_eq_ok.mp hPlaced
  cases module? with
  | none =>
    cases h
    refine ⟨name, placed, none, hName, hChecked, hContext, Bool.eq_false_iff.mpr hNew, ?_, rfl⟩
    intro index hIndex
    cases hIndex
  | some module =>
    dsimp only at h
    split at h
    · cases h
    · rename_i found index hFound
      cases h
      refine ⟨name, placed, some index, hName, hChecked, hContext, Bool.eq_false_iff.mpr hNew, ?_, rfl⟩
      rintro _ ⟨⟩
      have hSame := List.find?_some hFound
      exact ⟨found, List.mem_of_find?_eq_some hFound, congrArg some (beq_iff_eq.mp hSame)⟩

theorem prepare_eq_ok {pending : List String} {member prepared : Member}
    (h : model.prepare context aggregate pending member = .ok prepared) :
    ∃ normal placed target, checkedName member.name = .ok prepared.name ∧ reservedSpelling? prepared.name = none ∧
      member.normalize = .ok normal ∧ prepared = normal.rename prepared.name ∧
      model.findContext? context = some placed ∧ placed.context.findAggregate? aggregate = some target ∧
      prepared.name ∉ member.kind.names target.aggregate ∧ prepared.name ∉ pending ∧
      (member.kind.sharesNames = true → model.firstOccurrence? prepared.name = none) := by
  obtain ⟨name, hName, h⟩ := bind_eq_ok.mp h
  obtain ⟨_, hReserved, h⟩ := bind_eq_ok.mp h
  obtain ⟨normal, hNormal, h⟩ := bind_eq_ok.mp h
  obtain ⟨⟨placed, target⟩, hTarget, h⟩ := bind_eq_ok.mp h
  obtain ⟨hContext, hAggregate⟩ := requireAggregate_eq_ok.mp hTarget
  obtain ⟨hNew, h⟩ := unless_eq_ok.mp h
  obtain ⟨hUnused, hPending⟩ := not_or.mp hNew
  have hPrepared : prepared = normal.rename name ∧
      (member.kind.sharesNames = true → model.firstOccurrence? name = none) := by
    dsimp only at h
    split at h
    · split at h
      · cases h
      · rename_i hFirst
        cases h
        exact ⟨rfl, fun _ => hFirst⟩
    · rename_i hOwn
      cases h
      exact ⟨rfl, fun hShares => absurd hShares hOwn⟩
  obtain ⟨rfl, hFirst⟩ := hPrepared
  rw [Member.name_rename]
  exact ⟨normal, placed, target, hName, refuseReserved_eq_ok.mp hReserved, hNormal, rfl, hContext, hAggregate,
    hUnused, hPending, hFirst⟩

theorem insert_eq_ok {member : Member} (h : model.insert context aggregate member = .ok (changed, path)) :
    ∃ placed target, model.findContext? context = some placed ∧
      placed.context.findAggregate? aggregate = some target ∧
      changed = model.modifyContext placed.index (fun found =>
        found.modifyAggregate target.place fun changed => changed.append member) ∧
      path = placed.path ++ target.place.path ++
        [(member.kind.field, (member.kind.names target.aggregate).length)] := by
  obtain ⟨⟨placed, target⟩, hTarget, h⟩ := bind_eq_ok.mp h
  obtain ⟨hContext, hAggregate⟩ := requireAggregate_eq_ok.mp hTarget
  cases h
  exact ⟨placed, target, hContext, hAggregate, rfl, rfl⟩

theorem requireExposed_eq_ok {relationship : Relationship} {nothing : Unit}
    (h : model.requireExposed relationship = .ok nothing) :
    ∀ directed, relationship = .directed directed →
      ∃ upstream, model.findContext? directed.upstream = some upstream ∧
        ∀ name ∈ directed.exposedAggregates, upstream.context.hasAggregate name = true := by
  rintro directed rfl
  obtain ⟨upstream, hUpstream, h⟩ := bind_eq_ok.mp h
  refine ⟨upstream, requireContext_eq_ok.mp hUpstream, fun name hName => ?_⟩
  split at h
  · cases h
  · rename_i hNone
    simpa using List.find?_eq_none.mp hNone name hName

theorem addRelationship_eq_ok {relationship : Relationship}
    (h : model.addRelationship relationship = .ok (changed, path)) :
    model.hasContext relationship.participants.1 = true ∧ model.hasContext relationship.participants.2 = true ∧
      (∀ directed, relationship = .directed directed →
        ∃ upstream, model.findContext? directed.upstream = some upstream ∧
          ∀ name ∈ directed.exposedAggregates, upstream.context.hasAggregate name = true) ∧
      changed = { model with
        contextMap := some { model.contextMap.getD {} with
          relationships := (model.contextMap.getD {}).relationships ++ [relationship] } } ∧
      path = [(.relationships, (model.contextMap.getD {}).relationships.length)] := by
  obtain ⟨first, hFirst, h⟩ := bind_eq_ok.mp h
  obtain ⟨second, hSecond, h⟩ := bind_eq_ok.mp h
  obtain ⟨_, hExposed, h⟩ := bind_eq_ok.mp h
  cases h
  refine ⟨?_, ?_, requireExposed_eq_ok hExposed, rfl, rfl⟩
  · rw [hasContext, requireContext_eq_ok.mp hFirst, Option.isSome_some]
  · rw [hasContext, requireContext_eq_ok.mp hSecond, Option.isSome_some]

theorem singleOutcome_eq_ok {outcome : Except Rejection (Model × Path)} {paths : List Path}
    (h : singleOutcome outcome = .ok (changed, paths)) : ∃ path, outcome = .ok (changed, path) ∧ paths = [path] := by
  cases outcome with
  | error rejection => cases h
  | ok result =>
    obtain ⟨model, path⟩ := result
    cases h
    exact ⟨path, rfl, rfl⟩

end Model

end DomainAtlas
