import DomainAtlas.Proofs.Editing.Growing

/-! # Members, one by one and in batches

A batch is prepared against the model as it was, and then added member by member. What was free in the old model
is still free when its turn comes, because the members of a batch have different names.
-/
set_option autoImplicit false

namespace DomainAtlas

theorem Member.mem_sharedNames {member : Member} {name : String} :
    name ∈ member.sharedNames ↔ member.kind.sharesNames = true ∧ name = member.name := by
  unfold Member.sharedNames
  split
  · rename_i hShares
    simp [hShares]
  · rename_i hOwn
    simp [hOwn]

theorem Member.nodup_sharedNames (member : Member) : member.sharedNames.Nodup := by
  unfold Member.sharedNames
  split
  · exact List.nodup_singleton _
  · exact List.nodup_nil

namespace Model

variable {model changed : Model} {context aggregate : String}

theorem firstOccurrence?_eq_none_iff {name : String} :
    model.firstOccurrence? name = none ↔ name ∉ model.objectNames := by
  rw [firstOccurrence?, Option.map_eq_none_iff, List.find?_eq_none, ← map_fst_occurrences, List.mem_map]
  constructor
  · rintro h ⟨entry, hMem, hName⟩
    exact h entry hMem (beq_iff_eq.mpr hName)
  · intro h entry hMem hName
    exact h ⟨entry, hMem, beq_iff_eq.mp hName⟩

/-- The member may be added: its name is not reserved, and has no other use if the model shares it. -/
structure Accepts (model : Model) (member : Member) : Prop where
  allowed : reservedSpelling? member.name = none
  unused : ∀ name ∈ member.sharedNames, name ∉ model.objectNames

theorem accepts_of_prepare {pending : List String} {member prepared : Member}
    (h : model.prepare context aggregate pending member = .ok prepared) :
    model.Accepts prepared ∧ prepared.name ∉ pending := by
  obtain ⟨normal, _, _, -, hAllowed, hNormal, hPrepared, -, -, -, hPending, hFirst⟩ := prepare_eq_ok h
  have hKind : prepared.kind = member.kind := by
    rw [hPrepared, Member.kind_rename, Member.kind_normalize hNormal]
  refine ⟨⟨hAllowed, fun name hName => ?_⟩, hPending⟩
  obtain ⟨hShares, rfl⟩ := Member.mem_sharedNames.mp hName
  rw [hKind] at hShares
  exact firstOccurrence?_eq_none_iff.mp (hFirst hShares)

theorem accepts_of_prepareAll {mode : BatchMode} {index : Nat} {pending : List String}
    {members accepted : List Member}
    (h : model.prepareAll context aggregate mode index pending members = (accepted, [])) :
    (∀ member ∈ accepted, model.Accepts member ∧ member.name ∉ pending) ∧ (accepted.map (·.name)).Nodup := by
  induction members generalizing index pending accepted with
  | nil =>
    cases h
    exact ⟨fun _ hMem => absurd hMem List.not_mem_nil, List.nodup_nil⟩
  | cons member members ih =>
    rw [prepareAll] at h
    split at h
    · rename_i prepared hPrepared
      -- The name of this member is pending for the members behind it.
      generalize hRest : model.prepareAll context aggregate mode (index + 1) (pending ++ [prepared.name]) members =
        rest at h
      obtain ⟨others, failures⟩ := rest
      cases h
      obtain ⟨hOthers, hNodup⟩ := ih hRest
      have hPending := fun other hOther => not_or.mp (mt List.mem_append.mpr (hOthers other hOther).2)
      refine ⟨?_, ?_⟩
      · intro other hOther
        rcases List.mem_cons.mp hOther with rfl | hOther
        · exact accepts_of_prepare hPrepared
        · exact ⟨(hOthers other hOther).1, (hPending other hOther).1⟩
      · rw [List.map_cons, List.nodup_cons]
        refine ⟨fun hMem => ?_, hNodup⟩
        obtain ⟨other, hOther, hName⟩ := List.mem_map.mp hMem
        exact (hPending other hOther).2 (List.mem_singleton.mpr hName)
    · cases mode <;> cases h

theorem Clean.insert (h : model.Clean) {member : Member} {path : Path} (hAccepts : model.Accepts member)
    (hInsert : model.insert context aggregate member = .ok (changed, path)) :
    changed.Clean ∧ changed.objectNames.Perm (member.sharedNames ++ model.objectNames) := by
  obtain ⟨placed, target, hPlaced, hTarget, rfl, -⟩ := insert_eq_ok hInsert
  obtain ⟨-, hMem⟩ := findAggregate?_eq_some hTarget
  exact h.modifyContext hPlaced (BoundedContext.growsTo_append hMem hAccepts.allowed) member.nodup_sharedNames
    hAccepts.unused

theorem Clean.insertAll (h : model.Clean) {members : List Member} {paths : List Path}
    (hAccepts : ∀ member ∈ members, model.Accepts member) (hNodup : (members.map (·.name)).Nodup)
    (hInsert : model.insertAll context aggregate members = .ok (changed, paths)) : changed.Clean := by
  induction members generalizing model paths with
  | nil =>
    cases hInsert
    exact h
  | cons member members ih =>
    obtain ⟨⟨next, path⟩, hNext, hRest⟩ := bind_eq_ok.mp hInsert
    obtain ⟨⟨final, others⟩, hFinal, hDone⟩ := bind_eq_ok.mp hRest
    cases hDone
    obtain ⟨hClean, hObjects⟩ := h.insert (hAccepts member List.mem_cons_self) hNext
    obtain ⟨hFirst, hNodup⟩ := List.nodup_cons.mp hNodup
    refine ih hClean (fun other hOther => ?_) hNodup hFinal
    have hOld := hAccepts other (List.mem_cons_of_mem _ hOther)
    refine ⟨hOld.allowed, fun name hName hUsed => ?_⟩
    rcases List.mem_append.mp (hObjects.mem_iff.mp hUsed) with hAdded | hUsed
    · obtain ⟨-, hSame⟩ := Member.mem_sharedNames.mp hAdded
      obtain ⟨-, rfl⟩ := Member.mem_sharedNames.mp hName
      exact hFirst (List.mem_map.mpr ⟨other, hOther, hSame⟩)
    · exact hOld.unused name hName hUsed

theorem Clean.addMember (h : model.Clean) {member : Member} {path : Path}
    (hAdd : model.addMember context aggregate member = .ok (changed, path)) : changed.Clean := by
  obtain ⟨prepared, hPrepared, hInsert⟩ := bind_eq_ok.mp hAdd
  exact (h.insert (accepts_of_prepare hPrepared).1 hInsert).1

theorem Clean.addMembers (h : model.Clean) {members : List Member} {mode : BatchMode} {paths : List Path}
    (hAdd : model.addMembers context aggregate members mode = .ok (changed, paths)) : changed.Clean := by
  unfold Model.addMembers at hAdd
  split at hAdd
  · rename_i accepted hAccepted
    obtain ⟨hAccepts, hNodup⟩ := accepts_of_prepareAll hAccepted
    cases hInsert : model.insertAll context aggregate accepted with
    | error rejection =>
      rw [hInsert] at hAdd
      cases hAdd
    | ok outcome =>
      rw [hInsert] at hAdd
      cases hAdd
      exact h.insertAll (fun member hMember => (hAccepts member hMember).1) hNodup hInsert
  · cases hAdd

end Model

end DomainAtlas
