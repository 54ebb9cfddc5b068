/-! # Lists without repetitions

First occurrences, kept all at once or as they come.
-/
set_option autoImplicit false

namespace DomainAtlas

variable {α β : Type}

theorem flatMap_empty (values : List α) : values.flatMap (fun _ => ([] : List β)) = [] :=
  List.flatMap_eq_nil_iff.mpr fun _ _ => rfl

theorem nodup_eraseDups [BEq α] [LawfulBEq α] (values : List α) : values.eraseDups.Nodup := by
  match values with
  | [] => exact List.nodup_nil
  | value :: values =>
    rw [List.eraseDups_cons, List.nodup_cons]
    refine ⟨?_, nodup_eraseDups _⟩
    simp [List.mem_eraseDups]
termination_by values.length
decreasing_by exact Nat.lt_succ_of_le (List.length_filter_le ..)

theorem eraseDups_of_nodup [BEq α] [LawfulBEq α] {values : List α} (h : values.Nodup) :
    values.eraseDups = values := by
  induction values with
  | nil => rfl
  | cons value values ih =>
    obtain ⟨hNew, hNodup⟩ := List.nodup_cons.mp h
    have hFilter : values.filter (fun other => !other == value) = values := by
      refine List.filter_eq_self.mpr fun other hOther => ?_
      have hNe : other ≠ value := fun hEq => hNew (hEq ▸ hOther)
      simpa using hNe
    rw [List.eraseDups_cons, hFilter, ih hNodup]

theorem eraseDups_concat_of_mem [BEq α] [LawfulBEq α] {values : List α} {value : α} (h : value ∈ values) :
    (values ++ [value]).eraseDups = values.eraseDups := by
  have hNone : [value].removeAll values = [] := by
    simpa [List.removeAll] using h
  rw [List.eraseDups_append, hNone, List.eraseDups_nil, List.append_nil]

theorem eraseDups_concat_of_not_mem [BEq α] [LawfulBEq α] {values : List α} {value : α} (h : value ∉ values) :
    (values ++ [value]).eraseDups = values.eraseDups ++ [value] := by
  have hOne : [value].removeAll values = [value] := by
    simpa [List.removeAll] using h
  rw [List.eraseDups_append, hOne, List.eraseDups_cons, List.filter_nil, List.eraseDups_nil]

/-- One more value, unless it is there already. -/
def insertNew [DecidableEq α] (values : List α) (value : α) : List α :=
  if value ∈ values then values else values ++ [value]

theorem foldl_insertNew [DecidableEq α] (more values : List α) :
    more.foldl insertNew values = values ++ (more.filter (· ∉ values)).eraseDups := by
  induction more generalizing values with
  | nil => simp
  | cons value more ih =>
    rw [List.foldl_cons, ih]
    by_cases hMem : value ∈ values
    · simp [insertNew, hMem]
    · have hFilter : more.filter (· ∉ values ++ [value]) =
          (more.filter (· ∉ values)).filter (fun other => !other == value) := by
        rw [List.filter_filter]
        refine List.filter_congr fun other _ => ?_
        by_cases hOther : other = value <;> simp [hOther]
      rw [insertNew, if_neg hMem, hFilter, List.filter_cons_of_pos (by simpa using hMem), List.eraseDups_cons,
        List.append_assoc, List.singleton_append]

theorem foldl_insertNew_nil [DecidableEq α] (values : List α) :
    values.foldl insertNew [] = values.eraseDups := by
  have hFilter : values.filter (· ∉ []) = values := List.filter_eq_self.mpr fun _ _ => by simp
  rw [foldl_insertNew, hFilter, List.nil_append]

theorem perm_append_middle {fresh old new front back : List α} (h : new.Perm (fresh ++ old)) :
    (front ++ (new ++ back)).Perm (fresh ++ (front ++ (old ++ back))) := by
  have hMiddle := (h.append_right back).append_left front
  rw [List.append_assoc] at hMiddle
  exact hMiddle.trans (List.perm_append_comm_assoc front fresh (old ++ back))

end DomainAtlas
