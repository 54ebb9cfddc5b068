import DomainAtlas.Proofs.Editing.Batches

/-! # Editing keeps models clean

Each edit checks in its own way what the rules look for in the finished model. These checks are enough: no series
of edits, accepted or refused, brings a repeated name, a reserved name or a dangling reference into a clean model.
-/
set_option autoImplicit false

namespace DomainAtlas

namespace Model

variable {model changed : Model} {path : Path}

theorem Clean.addBoundedContext (h : model.Clean) {raw : String}
    (hAdd : model.addBoundedContext raw = .ok (changed, path)) : changed.Clean := by
  obtain ⟨name, -, hNew, rfl, -⟩ := addBoundedContext_eq_ok hAdd
  refine h.addContext fun hMem => ?_
  rw [hasContext_iff.mpr hMem] at hNew
  cases hNew

theorem Clean.addModule (h : model.Clean) {context raw : String}
    (hAdd : model.addModule context raw = .ok (changed, path)) : changed.Clean := by
  obtain ⟨name, placed, -, hPlaced, -, rfl, -⟩ := addModule_eq_ok hAdd
  exact (h.modifyContext hPlaced (BoundedContext.growsTo_appendModule placed.context name) List.nodup_nil
    fun _ hMem => absurd hMem List.not_mem_nil).1

theorem Clean.addAggregate (h : model.Clean) {context raw : String} {module? : Option String}
    (hAdd : model.addAggregate context module? raw = .ok (changed, path)) : changed.Clean := by
  obtain ⟨name, placed, position, -, hAllowed, hPlaced, hNew, hPosition, rfl⟩ := addAggregate_eq_ok hAdd
  have hFree : name ∉ placed.context.aggregateList.map (·.name) := by
    intro hMem
    rw [hasAggregate_iff.mpr hMem] at hNew
    cases hNew
  have hFound : ∀ index ∈ position, ∃ found, (found, index) ∈ placed.context.modules.zipIdx := by
    intro index hIndex
    obtain ⟨found, hMem, -⟩ := hPosition index hIndex
    exact ⟨found, hMem⟩
  exact (h.modifyContext hPlaced (BoundedContext.growsTo_appendAggregate hFound hFree hAllowed) List.nodup_nil
    fun _ hMem => absurd hMem List.not_mem_nil).1

theorem supports_of_addRelationship {relationship : Relationship}
    (hAdd : model.addRelationship relationship = .ok (changed, path)) : model.Supports relationship := by
  obtain ⟨hFirst, hSecond, hExposed, -, -⟩ := addRelationship_eq_ok hAdd
  refine ⟨hasContext_iff.mp hFirst, hasContext_iff.mp hSecond, ?_⟩
  intro directed hDirected _ name hName
  obtain ⟨upstream, hUpstream, hKnown⟩ := hExposed directed hDirected
  obtain ⟨hContext, -⟩ := findContext?_eq_some hUpstream
  exact ⟨upstream.context, mem_of_findContext? hUpstream, hContext, hasAggregate_iff.mp (hKnown name hName)⟩

theorem Clean.addRelationship (h : model.Clean) {relationship : Relationship}
    (hAdd : model.addRelationship relationship = .ok (changed, path)) : changed.Clean := by
  have hSupports := supports_of_addRelationship hAdd
  obtain ⟨-, -, -, rfl, -⟩ := addRelationship_eq_ok hAdd
  refine ⟨h.contexts, h.aggregates, h.objects, ?_, ?_, h.names⟩
  · rintro _ ⟨⟩ name hName
    cases hMap : model.contextMap with
    | none =>
      rw [hMap] at hName
      cases hName
    | some map =>
      rw [hMap] at hName
      exact h.contained map hMap name hName
  · rintro _ ⟨⟩ other hOther
    suffices hOther : model.Supports other from hOther.mono (fun _ => id) fun _ _ => id
    rcases List.mem_append.mp hOther with hOld | hNew
    · cases hMap : model.contextMap with
      | none =>
        rw [hMap] at hOld
        cases hOld
      | some map =>
        rw [hMap] at hOld
        exact h.relationships map hMap other hOld
    · rw [List.mem_singleton.mp hNew]
      exact hSupports

theorem Clean.edit (h : model.Clean) {edit : Edit} {paths : List Path}
    (hEdit : model.edit edit = .ok (changed, paths)) : changed.Clean := by
  cases edit with
  | boundedContext name =>
    obtain ⟨path, hAdd, -⟩ := singleOutcome_eq_ok hEdit
    exact h.addBoundedContext hAdd
  | module context name =>
    obtain ⟨path, hAdd, -⟩ := singleOutcome_eq_ok hEdit
    exact h.addModule hAdd
  | aggregate context module? name =>
    obtain ⟨path, hAdd, -⟩ := singleOutcome_eq_ok hEdit
    exact h.addAggregate hAdd
  | member context aggregate member =>
    obtain ⟨path, hAdd, -⟩ := singleOutcome_eq_ok hEdit
    exact h.addMember hAdd
  | entities context aggregate entities mode => exact h.addMembers hEdit
  | valueObjects context aggregate objects mode => exact h.addMembers hEdit
  | relationship relationship =>
    obtain ⟨path, hAdd, -⟩ := singleOutcome_eq_ok hEdit
    exact h.addRelationship hAdd

theorem Clean.after (h : model.Clean) (edit : Edit) : (model.after edit).Clean := by
  unfold Model.after
  split
  · rename_i changed paths hEdit
    exact h.edit hEdit
  · exact h

theorem Clean.afterAll (h : model.Clean) (edits : List Edit) : (model.afterAll edits).Clean := by
  induction edits generalizing model with
  | nil => exact h
  | cons edit edits ih => exact ih (h.after edit)

end Model

theorem code_not_mem_editingCodes_afterAll (model : Model) (edits : List Edit)
    (h : ∀ finding ∈ model.validate.findings, finding.code ∉ editingCodes) :
    ∀ finding ∈ (model.afterAll edits).validate.findings, finding.code ∉ editingCodes := by
  have hClean : model.Clean := Model.clean_iff.mpr h
  exact Model.clean_iff.mp (hClean.afterAll edits)

theorem code_not_mem_editingCodes_sales :
    (∀ finding ∈ ({ boundedContexts := [{ name := "Sales" }] } : Model).validate.findings,
      finding.code ∉ editingCodes) ∧
      ∀ finding ∈ (({ boundedContexts := [{ name := "Sales" }] } : Model).afterAll
        [.boundedContext "Sales", .aggregate "Sales" none "Orders",
          .entities "Sales" "Orders" [{ name := "Order" }, { name := "Order" }] .collectAll,
          .member "Sales" "Orders" (.entity { name := "Order" })]).validate.findings,
        finding.code ∉ editingCodes := by
  have hStart : ∀ finding ∈ ({ boundedContexts := [{ name := "Sales" }] } : Model).validate.findings,
      finding.code ∉ editingCodes := by
    decide
  exact ⟨hStart, code_not_mem_editingCodes_afterAll _ _ hStart⟩

example :
    (({ boundedContexts := [{ name := "Sales" }] } : Model).afterAll
      [.boundedContext "Sales", .aggregate "Sales" none "Orders",
        .entities "Sales" "Orders" [{ name := "Order" }, { name := "Order" }] .collectAll,
        .member "Sales" "Orders" (.entity { name := "Order" })]).objectNames = ["Order"] := by
  cbv

end DomainAtlas
