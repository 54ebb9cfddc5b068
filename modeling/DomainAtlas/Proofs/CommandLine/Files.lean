import DomainAtlas.CommandLine.Run
import DomainAtlas.Proofs.CommandLine.Platform

/-! # Writing a file

A path leads to names that are reached through directories only. When a file is put at such names, the entry there is
the file, and all other entries stay what they were; so all other names are reached as before.
-/
set_option autoImplicit false

namespace DomainAtlas

/-! ## Names in paths -/

theorem Text.splitChars_eq_splitOn (separator : Char) (cs : List Char) :
    splitChars separator cs = cs.splitOn separator := by
  induction cs with
  | nil => rfl
  | cons c cs ih =>
    rw [splitChars, ih, List.splitOn, List.splitOn, List.splitOnP_cons_eq_if_modifyHead]
    by_cases hSame : c = separator
    · simp [hSame]
    · obtain ⟨first, others, hPieces⟩ := List.exists_cons_of_ne_nil (List.splitOnP_ne_nil (· == separator) cs)
      simp [hSame, hPieces]

theorem Text.not_mem_of_mem_splitChars {separator : Char} {cs piece : List Char}
    (h : piece ∈ splitChars separator cs) : separator ∉ piece := by
  fun_induction splitChars separator cs generalizing piece with
  | case1 =>
    obtain rfl := List.mem_singleton.mp h
    exact List.not_mem_nil
  | case2 cs ih =>
    rcases List.mem_cons.mp h with rfl | hOthers
    · exact List.not_mem_nil
    · exact ih hOthers
  | case3 c cs hOther hNone ih =>
    obtain rfl := List.mem_singleton.mp h
    exact fun hMem => hOther (List.mem_singleton.mp hMem).symm
  | case4 c cs hOther first others hSome ih =>
    rcases List.mem_cons.mp h with rfl | hOthers
    · have hFirst := ih (hSome ▸ List.mem_cons_self)
      exact fun hMem => (List.mem_cons.mp hMem).elim (fun hSame => hOther hSame.symm) hFirst
    · exact ih (hSome ▸ List.mem_cons_of_mem first hOthers)

namespace CommandLine

/-- The name of an entry of a directory: no separator is in it. -/
def IsStep (name : String) : Prop :=
  '/' ∉ name.toList ∧ name ≠ ""

theorem isStep_of_mem_steps {path step : String} (h : step ∈ steps path) (hSome : step ≠ "") : IsStep step := by
  obtain ⟨piece, hPiece, rfl⟩ := List.mem_map.mp h
  refine ⟨?_, hSome⟩
  rw [String.toList_ofList]
  exact Text.not_mem_of_mem_splitChars hPiece

theorem namesOf_intercalate {names : List String} (hSteps : ∀ name ∈ names, IsStep name) :
    namesOf ("/".intercalate names) = names := by
  rcases names with _ | ⟨name, names⟩
  · rfl
  · have hPieces : (("/".intercalate (name :: names)).toList).splitOn '/' = (name :: names).map String.toList := by
      rw [String.toList_intercalate]
      refine List.splitOn_intercalate '/' ?_ (List.cons_ne_nil _ _)
      exact List.forall_mem_map.mpr fun other hOther => (hSteps other hOther).1
    have hSame : steps ("/".intercalate (name :: names)) = name :: names := by
      rw [steps, Text.split, Text.splitChars_eq_splitOn, hPieces, List.map_map]
      exact List.map_id'' (fun name => String.ofList_toList) (name :: names)
    rw [namesOf, hSame]
    exact List.filter_eq_self.mpr fun other hOther => decide_eq_true (hSteps other hOther).2

namespace Tree

variable {tree : Tree} {names : List String}

/-- Each proper front of the names is a directory. -/
structure Reached (tree : Tree) (names : List String) : Prop where
  steps : ∀ name ∈ names, IsStep name
  inside : ∀ front, front <+: names → front ≠ names → tree.entry front = .directory

theorem reached_nil (tree : Tree) : tree.Reached [] where
  steps := by simp
  inside _ hFront hProper := absurd (List.prefix_nil.mp hFront) hProper

theorem Reached.step (h : tree.Reached names) (hEntry : tree.entry names = .directory) {step : String}
    (hStep : IsStep step) : tree.Reached (names ++ [step]) where
  steps := List.forall_mem_append.mpr ⟨h.steps, List.forall_mem_singleton.mpr hStep⟩
  inside front hFront hProper := by
    have hFront := (List.prefix_concat_iff.mp hFront).resolve_left hProper
    by_cases hAll : front = names
    · exact hAll ▸ hEntry
    · exact h.inside front hFront hAll

theorem Reached.dropLast (h : tree.Reached names) : tree.Reached names.dropLast where
  steps name hName := h.steps name ((List.dropLast_prefix names).subset hName)
  inside front hFront hProper := by
    refine h.inside front (hFront.trans (List.dropLast_prefix names)) ?_
    rintro rfl
    exact hProper (hFront.eq_of_length_le (by simp))

theorem reached_of_walk {path : List String} {target : List String} (h : tree.walk names path = .ok target)
    (hNames : tree.Reached names) (hPath : ∀ step ∈ path, step ≠ "" → IsStep step) : tree.Reached target := by
  induction path generalizing names with
  | nil =>
    cases h
    exact hNames
  | cons step others ih =>
    obtain ⟨hStep, hOthers⟩ := List.forall_mem_cons.mp hPath
    rw [walk] at h
    split at h
    · cases h
    · cases h
    · rename_i hEntry
      split at h
      · exact ih h hNames hOthers
      · rename_i hMoves
        split at h
        · exact ih h hNames.dropLast hOthers
        · exact ih h (hNames.step hEntry (hStep fun hNone => hMoves (.inl hNone))) hOthers

theorem reached_of_resolve {path : String} {target : List String} (h : tree.resolve path = .ok target) :
    tree.Reached target := by
  unfold resolve at h
  split at h
  · cases h
  · split at h
    · exact reached_of_walk h (reached_nil tree) fun _ => isStep_of_mem_steps
    · refine reached_of_walk h (reached_nil tree) (List.forall_mem_append.mpr ⟨?_, ?_⟩) <;>
        exact fun _ => isStep_of_mem_steps

/-! ## The file that is put -/

theorem entry_of_find {path content : String}
    (h : (tree.files.find? fun file => namesOf file.path == names) = some ⟨path, content⟩) :
    tree.entry names = .file content := by
  rw [entry, h]

theorem entry_of_none (h : ∀ file ∈ tree.files, namesOf file.path ≠ names) :
    tree.entry names =
      if names <+: namesOf tree.workingDirectory ∨ ∃ file ∈ tree.files, names <+: namesOf file.path then .directory
      else .absent := by
  rw [entry, List.find?_eq_none.mpr (by simpa using h)]
  simp

theorem no_file_of_directory (h : tree.entry names = .directory) :
    ∀ file ∈ tree.files, namesOf file.path ≠ names := by
  cases hFind : tree.files.find? fun file => namesOf file.path == names with
  | some file => exact nomatch (entry_of_find hFind).symm.trans h
  | none => simpa using hFind

section Changing

variable {change : File → File} (hPath : ∀ file, (change file).path = file.path)
include hPath

theorem find_map (files : Files) (names : List String) :
    ((files.map change).find? fun file => namesOf file.path == names) =
      (files.find? fun file => namesOf file.path == names).map change := by
  rw [List.find?_map]
  simp only [Function.comp_def, hPath]

theorem entry_map (hContent : ∀ file, namesOf file.path = names → change file = file) :
    ({ tree with files := tree.files.map change } : Tree).entry names = tree.entry names := by
  rw [entry, entry, find_map hPath]
  cases hFind : tree.files.find? fun file => namesOf file.path == names with
  | some file =>
    have hNames : namesOf file.path = names := by simpa using List.find?_some hFind
    rw [Option.map_some, hContent file hNames]
  | none => simp only [Option.map_none, List.any_map, Function.comp_def, hPath]

end Changing

section Putting

variable {target : List String} (h : tree.Reached target) (content : String)
include h

theorem entry_put_self : (tree.put target content).entry target = .file content := by
  have hPut : ∃ path, (tree.put target content).files.find? (fun file => namesOf file.path == target) =
      some ⟨path, content⟩ := by
    cases hFind : tree.files.find? fun file => namesOf file.path == target with
    | some file =>
      have hFile := List.find?_some hFind
      rw [put, if_pos (List.any_eq_true.mpr ⟨file, List.mem_of_find?_eq_some hFind, hFile⟩),
        find_map (by intro file; split <;> rfl), hFind, Option.map_some, if_pos hFile]
      exact ⟨file.path, rfl⟩
    | none =>
      rw [put, if_neg (by simpa using List.find?_eq_none.mp hFind), List.find?_append, hFind]
      exact ⟨"/".intercalate target, by simp [namesOf_intercalate h.steps]⟩
  obtain ⟨path, hFind⟩ := hPut
  exact entry_of_find hFind

theorem entry_put_of_ne (hOther : names ≠ target) : (tree.put target content).entry names = tree.entry names := by
  by_cases hExists : tree.files.any fun file => namesOf file.path == target
  · rw [put, if_pos hExists]
    refine entry_map (by intro file; split <;> rfl) ?_
    rintro file rfl
    rw [if_neg (by simpa using hOther)]
  · rw [put, if_neg hExists]
    by_cases hInside : names <+: target
    · -- the directories on the way to the file are there before
      have hDirectory := h.inside names hInside hOther
      have hNone := no_file_of_directory hDirectory
      rw [hDirectory, entry_of_none, if_pos]
      · exact .inr ⟨_, List.mem_append_right _ List.mem_cons_self, by rwa [namesOf_intercalate h.steps]⟩
      · exact List.forall_mem_append.mpr
          ⟨hNone, List.forall_mem_singleton.mpr (by simpa [namesOf_intercalate h.steps] using hOther.symm)⟩
    · rw [entry, entry, List.find?_append]
      cases tree.files.find? fun file => namesOf file.path == names <;>
        simp [namesOf_intercalate h.steps, hOther.symm, hInside]

end Putting

/-! ## What the other paths lead to -/

section Putting

variable {target : List String} (h : tree.Reached target) (hPlace : tree.entry target ≠ .directory) (content : String)
include h hPlace

theorem walk_put_eq_ok {path final : List String} :
    (tree.put target content).walk names path = .ok final ↔ tree.walk names path = .ok final := by
  induction path generalizing names with
  | nil => rfl
  | cons step others ih =>
    rw [walk, walk]
    by_cases hTarget : names = target
    · subst hTarget
      rw [entry_put_self h]
      cases hEntry : tree.entry names with
      | directory => exact absurd hEntry hPlace
      | file _ => rfl
      | absent => simp
    · rw [entry_put_of_ne h content hTarget]
      cases tree.entry names with
      | file _ => rfl
      | absent => rfl
      | directory =>
        by_cases hStay : step = "" ∨ step = "."
        · simpa only [if_pos hStay] using ih
        · by_cases hUp : step = ".."
          · simpa only [if_neg hStay, if_pos hUp] using ih
          · simpa only [if_neg hStay, if_neg hUp] using ih

theorem resolve_put_eq_ok {path : String} {final : List String} :
    (tree.put target content).resolve path = .ok final ↔ tree.resolve path = .ok final := by
  have hDirectory : (tree.put target content).workingDirectory = tree.workingDirectory := by
    unfold put
    split <;> rfl
  unfold resolve
  rw [hDirectory]
  split
  · rfl
  · split <;> exact walk_put_eq_ok h hPlace content

end Putting

theorem read_eq_ok_iff {path content : String} :
    tree.read path = .ok content ↔ ∃ names, tree.resolve path = .ok names ∧ tree.entry names = .file content := by
  unfold read
  cases tree.resolve path with
  | error problem => simp [bind, Except.bind]
  | ok names =>
    cases hEntry : tree.entry names <;>
      simp [bind, Except.bind, pure, Except.pure, throw, throwThe, MonadExceptOf.throw, hEntry]

theorem has_iff {path : String} :
    tree.has path = true ↔ ∃ names, tree.resolve path = .ok names ∧ tree.entry names ≠ .absent := by
  unfold has
  cases tree.resolve path <;> simp

theorem write_eq_ok_iff {path content : String} {later : Tree} :
    tree.write path content = (.ok (), later) ↔
      ∃ target, tree.resolve path = .ok target ∧ tree.entry target ≠ .directory ∧ later = tree.put target content := by
  unfold write
  cases tree.resolve path with
  | error problem => simp
  | ok target => cases hEntry : tree.entry target <;> simp [hEntry, eq_comm]

theorem eq_of_write_eq_error {path content : String} {problem : FileProblem} {later : Tree}
    (h : tree.write path content = (.error problem, later)) : later = tree := by
  unfold write at h
  split at h
  · exact (Prod.mk.inj h).2.symm
  · split at h
    · exact (Prod.mk.inj h).2.symm
    · cases h

/-! ## The laws of a platform -/

/-- The paths lead to the same names. -/
def Same (tree : Tree) (path other : String) : Prop :=
  ∃ names, tree.resolve path = .ok names ∧ tree.resolve other = .ok names

/-- A path to other names leads to what it led to. -/
theorem leads_of_write {later : Tree} {path text other : String} (h : tree.write path text = (.ok (), later))
    (hOther : ¬ tree.Same path other) (Holds : Entry → Prop) :
    (∃ names, later.resolve other = .ok names ∧ Holds (later.entry names)) ↔
      ∃ names, tree.resolve other = .ok names ∧ Holds (tree.entry names) := by
  obtain ⟨target, hTarget, hPlace, rfl⟩ := write_eq_ok_iff.mp h
  have hReached := reached_of_resolve hTarget
  refine exists_congr fun names => ?_
  rw [resolve_put_eq_ok hReached hPlace]
  refine and_congr_right fun hNames => ?_
  have hApart : names ≠ target := by
    rintro rfl
    exact hOther ⟨names, hTarget, hNames⟩
  rw [entry_put_of_ne hReached _ hApart]

theorem lawful_platform (settingsDirectory? : Option String) : (platform settingsDirectory?).Lawful Same where
  read_self h := by
    obtain ⟨target, hTarget, hPlace, rfl⟩ := write_eq_ok_iff.mp h
    have hReached := reached_of_resolve hTarget
    exact read_eq_ok_iff.mpr
      ⟨target, (resolve_put_eq_ok hReached hPlace _).mpr hTarget, entry_put_self hReached _⟩
  read_other {_ _ _ _ _ content} h hOther :=
    read_eq_ok_iff.trans ((leads_of_write h hOther (· = .file content)).trans read_eq_ok_iff.symm)
  has_other h hOther :=
    Bool.eq_iff_iff.mpr (has_iff.trans ((leads_of_write h hOther (· ≠ .absent)).trans has_iff.symm))

end Tree

end CommandLine

end DomainAtlas
