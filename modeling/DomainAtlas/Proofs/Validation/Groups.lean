import DomainAtlas.Proofs.Lists
import DomainAtlas.Validation.Rules

/-! # Groups and repetitions

`group` has one group for each name, in order of first occurrence, with all values of the name in order.
A name is `repeated` exactly where it occurs twice.
-/
set_option autoImplicit false

namespace DomainAtlas.Validation

variable {α : Type}

/-- The values of a name. -/
def valuesOf (entries : List (String × α)) (name : String) : List α :=
  (entries.filter fun entry => entry.1 == name).map (·.2)

theorem valuesOf_append (front back : List (String × α)) (name : String) :
    valuesOf (front ++ back) name = valuesOf front name ++ valuesOf back name := by
  rw [valuesOf, List.filter_append, List.map_append, valuesOf, valuesOf]

theorem valuesOf_singleton (entry : String × α) (name : String) :
    valuesOf [entry] name = if entry.1 = name then [entry.2] else [] := by
  by_cases hName : entry.1 = name
  · simp [valuesOf, hName]
  · simp [valuesOf, hName]

theorem valuesOf_eq_nil {entries : List (String × α)} {name : String} (h : name ∉ entries.map (·.1)) :
    valuesOf entries name = [] := by
  rw [valuesOf, List.map_eq_nil_iff, List.filter_eq_nil_iff]
  intro entry hEntry hName
  exact h (List.mem_map.mpr ⟨entry, hEntry, by simpa using hName⟩)

theorem addToGroup_of_not_mem {names : List String} {values : String → List α} {name : String} (value : α)
    (h : name ∉ names) :
    addToGroup name value (names.map fun other => (other, values other)) =
      names.map (fun other => (other, values other)) ++ [(name, [value])] := by
  induction names with
  | nil => rfl
  | cons other names ih =>
    have hNe : other ≠ name := fun hEq => h (hEq ▸ List.mem_cons_self)
    have hNames : name ∉ names := fun hName => h (List.mem_cons_of_mem _ hName)
    rw [List.map_cons, addToGroup, if_neg hNe, ih hNames, List.cons_append]

theorem addToGroup_of_mem {names : List String} {values : String → List α} {name : String} (value : α)
    (hNodup : names.Nodup) (h : name ∈ names) :
    addToGroup name value (names.map fun other => (other, values other)) =
      names.map fun other => (other, values other ++ if name = other then [value] else []) := by
  induction names with
  | nil => cases h
  | cons other names ih =>
    obtain ⟨hNew, hNames⟩ := List.nodup_cons.mp hNodup
    rw [List.map_cons, addToGroup, List.map_cons]
    by_cases hEq : other = name
    · subst hEq
      have hSame : names.map (fun n => (n, values n)) =
          names.map fun n => (n, values n ++ if other = n then [value] else []) := by
        refine List.map_congr_left fun n hn => ?_
        have hNe : other ≠ n := fun hEq => hNew (hEq ▸ hn)
        rw [if_neg hNe, List.append_nil]
      rw [if_pos rfl, if_pos rfl, hSame]
    · have hRest : name ∈ names := by
        rcases List.mem_cons.mp h with rfl | hRest
        · exact absurd rfl hEq
        · exact hRest
      rw [if_neg hEq, if_neg (Ne.symm hEq), List.append_nil, ih hNames hRest]

theorem addToGroup_groups (entries : List (String × α)) (entry : String × α) :
    addToGroup entry.1 entry.2 ((entries.map (·.1)).eraseDups.map fun name => (name, valuesOf entries name)) =
      ((entries ++ [entry]).map (·.1)).eraseDups.map fun name => (name, valuesOf (entries ++ [entry]) name) := by
  obtain ⟨name, value⟩ := entry
  simp only [List.map_append, List.map_cons, List.map_nil, valuesOf_append, valuesOf_singleton]
  by_cases hName : name ∈ entries.map (·.1)
  · rw [addToGroup_of_mem value (nodup_eraseDups _) (List.mem_eraseDups.mpr hName), eraseDups_concat_of_mem hName]
  · have hSame : (entries.map (·.1)).eraseDups.map (fun other => (other, valuesOf entries other)) =
        (entries.map (·.1)).eraseDups.map fun other =>
          (other, valuesOf entries other ++ if name = other then [value] else []) := by
      refine List.map_congr_left fun other hOther => ?_
      have hNe : name ≠ other := fun hEq => hName (hEq ▸ List.mem_eraseDups.mp hOther)
      rw [if_neg hNe, List.append_nil]
    rw [addToGroup_of_not_mem value (fun hMem => hName (List.mem_eraseDups.mp hMem)),
      eraseDups_concat_of_not_mem hName, hSame, List.map_append, List.map_singleton, valuesOf_eq_nil hName, if_pos rfl,
      List.nil_append]

theorem group_eq (entries : List (String × α)) :
    group entries = (entries.map (·.1)).eraseDups.map fun name => (name, valuesOf entries name) := by
  have hFold : ∀ front : List (String × α),
      entries.foldl (fun groups entry => addToGroup entry.1 entry.2 groups)
        ((front.map (·.1)).eraseDups.map fun name => (name, valuesOf front name)) =
      ((front ++ entries).map (·.1)).eraseDups.map fun name => (name, valuesOf (front ++ entries) name) := by
    induction entries with
    | nil =>
      intro front
      rw [List.append_nil]
      rfl
    | cons entry entries ih =>
      intro front
      rw [List.foldl_cons, addToGroup_groups, ih, List.append_assoc, List.singleton_append]
  exact hFold []

theorem mem_group {entries : List (String × α)} {name : String} {values : List α} :
    (name, values) ∈ group entries ↔ name ∈ entries.map (·.1) ∧ values = valuesOf entries name := by
  rw [group_eq, List.mem_map]
  constructor
  · rintro ⟨other, hOther, hEq⟩
    cases hEq
    exact ⟨List.mem_eraseDups.mp hOther, rfl⟩
  · rintro ⟨hName, rfl⟩
    exact ⟨name, List.mem_eraseDups.mpr hName, rfl⟩

/-! ## Repetitions -/

theorem length_valuesOf_unit (names : List String) (name : String) :
    (valuesOf (names.map fun other => (other, ())) name).length = names.count name := by
  rw [valuesOf, List.length_map, List.filter_map, List.length_map, List.count, List.countP_eq_length_filter]
  rfl

theorem repeated_eq (names : List String) :
    repeated names =
      (names.eraseDups.map fun name => (name, names.count name)).filter fun entry => 1 < entry.2 := by
  have hNames : (names.map fun name => (name, ())).map (·.1) = names := by
    rw [List.map_map]
    exact List.map_id names
  rw [repeated, group_eq, hNames, List.map_map]
  simp only [Function.comp_def, length_valuesOf_unit]

theorem mem_repeated {names : List String} {name : String} {count : Nat} :
    (name, count) ∈ repeated names ↔ count = names.count name ∧ 1 < count := by
  rw [repeated_eq, List.mem_filter, List.mem_map, decide_eq_true_iff]
  constructor
  · rintro ⟨⟨other, -, hEq⟩, hCount⟩
    cases hEq
    exact ⟨rfl, hCount⟩
  · rintro ⟨rfl, hCount⟩
    have hMem : name ∈ names := List.count_pos_iff.mp (by omega)
    exact ⟨⟨name, List.mem_eraseDups.mpr hMem, rfl⟩, hCount⟩

theorem repeated_eq_nil_iff {names : List String} : repeated names = [] ↔ names.Nodup := by
  rw [List.nodup_iff_count, List.eq_nil_iff_forall_not_mem]
  constructor
  · intro h name
    have hNot := h (name, names.count name)
    rw [mem_repeated] at hNot
    omega
  · rintro h ⟨name, count⟩ hMem
    obtain ⟨rfl, hCount⟩ := mem_repeated.mp hMem
    have hLe := h name
    omega

end DomainAtlas.Validation
