import DomainAtlas.Proofs.Editing.Places
import DomainAtlas.Proofs.Model.OfSource
import DomainAtlas.Proofs.Validation.ByCode
import Mathlib.Data.List.Dedup

/-! # The report on the context map

A map refers to contexts and to aggregates that they expose. References to contexts are reported independently of each
other. A relationship of a context with itself is reported as such, and then the aggregates that it exposes are not
looked at.
-/
set_option autoImplicit false

namespace DomainAtlas

open Validation

/-! ## Broken references -/

def Model.unknownContexts (model : Model) (site : ReferenceSite) (names : List String) : List Violation :=
  (names.filter (· ∉ model.contextNames)).map fun name => .unknownContext name site

namespace Relationship

/-- The contexts that take part, each of them once. -/
def contexts (relationship : Relationship) : List String :=
  [relationship.participants.1, relationship.participants.2].dedup

def symmetricSelf : Relationship → List Violation
  | symmetric kind first second => if first = second then [.symmetricSelf first kind] else []
  | directed _ => []

def directedSelf : Relationship → List Violation
  | symmetric .. => []
  | directed relationship =>
    if relationship.upstream = relationship.downstream then [.directedSelf relationship.upstream] else []

/-- The exposed aggregates that the first context with the name of the upstream one has neither itself nor in a module. -/
def brokenExposures (model : Model) : Relationship → List Violation
  | symmetric .. => []
  | directed relationship =>
    match model.boundedContexts.find? (·.name == relationship.upstream) with
    | none => []
    | some upstream =>
      (relationship.exposedAggregates.filter (· ∉ upstream.aggregateList.map (·.name))).map
        fun name => .unknownExposed name relationship.upstream

end Relationship

/-- The violations of all relationships, located there. -/
def ContextMap.findings (map : ContextMap) (violations : Relationship → List Violation) : List Finding :=
  map.relationships.flatMap fun relationship => (relationshipLocation map relationship).findings (violations relationship)

/-- One finding for each broken reference of the map, whatever else is wrong with it, and no other. -/
structure Model.ReportsReferences (model : Model) (map : ContextMap) : Prop where
  unknownContext : model.validate.ofCode .unknownContext =
    (Location.ofMap map).findings (model.unknownContexts .contains map.contains)
      ++ map.findings fun relationship => model.unknownContexts .relationship relationship.contexts
  symmetricSelf : model.validate.ofCode .symmetricSelf = map.findings Relationship.symmetricSelf
  directedSelf : model.validate.ofCode .directedSelf = map.findings Relationship.directedSelf
  unknownExposed : model.validate.ofCode .unknownExposed = map.findings (Relationship.brokenExposures model)

/-! ## Relationships one by one -/

variable {model : Model}

theorem distinctParticipants_eq_contexts (relationship : Relationship) :
    distinctParticipants relationship = relationship.contexts := by
  rw [distinctParticipants, Relationship.isSelf, Relationship.contexts]
  by_cases hSelf : relationship.participants.1 = relationship.participants.2
  · rw [if_pos (beq_iff_eq.mpr hSelf), ← hSelf, List.dedup_cons_of_mem List.mem_cons_self]
    exact (List.nodup_singleton _).dedup.symm
  · rw [if_neg (by simpa using hSelf)]
    exact (List.nodup_cons.mpr ⟨by simpa using hSelf, List.nodup_singleton _⟩).dedup.symm

theorem filterMap_unknownContext? (site : ReferenceSite) (location : Location) (names : List String) :
    names.filterMap (unknownContext? model site location) = location.findings (model.unknownContexts site names) := by
  have hKnown (name : String) : model.hasContext name = decide (name ∈ model.contextNames) :=
    Bool.eq_iff_iff.mpr (hasContext_iff.trans decide_eq_true_iff.symm)
  rw [Location.findings, Model.unknownContexts, List.map_map, ← List.filterMap_eq_map, List.filterMap_filter]
  refine List.filterMap_congr fun name _ => ?_
  rw [unknownContext?, hKnown]
  by_cases hName : name ∈ model.contextNames
  · rw [if_pos (decide_eq_true hName), if_neg (by simpa using hName)]
  · rw [if_neg (by simpa using hName), if_pos (by simpa using hName)]
    rfl

theorem findContext?_map_context (model : Model) (name : String) :
    (model.findContext? name).map (·.context) = model.boundedContexts.find? (·.name == name) := by
  have hContexts : model.placedContexts.map (·.context) = model.boundedContexts := by
    rw [Model.placedContexts, List.map_map]
    exact List.zipIdx_map_fst 0 model.boundedContexts
  conv_rhs => rw [← hContexts, List.find?_map]
  rfl

theorem unknownExposed_eq_brokenExposures (model : Model) (relationship : DirectedRelationship) :
    unknownExposed model relationship = (Relationship.directed relationship).brokenExposures model := by
  have hFirst := findContext?_map_context model relationship.upstream
  rw [unknownExposed, Relationship.brokenExposures, ← hFirst]
  cases model.findContext? relationship.upstream with
  | none => rfl
  | some upstream =>
    have hKnown (name : String) :
        (!upstream.context.hasAggregate name) = decide (name ∉ upstream.context.aggregateList.map (·.name)) := by
      rw [decide_not, Bool.not_inj_iff]
      exact Bool.eq_iff_iff.mpr (hasAggregate_iff.trans decide_eq_true_iff.symm)
    simp only [hKnown, Option.map_some]

/-- The aggregates that a context exposes to itself are passed over. -/
def Relationship.reportedExposures (model : Model) (relationship : Relationship) : List Violation :=
  if relationship.isSelf then [] else relationship.brokenExposures model

theorem relationshipViolations_eq (model : Model) (relationship : Relationship) :
    relationshipViolations model relationship =
      relationship.symmetricSelf ++ relationship.directedSelf ++ relationship.reportedExposures model := by
  rw [Relationship.reportedExposures]
  cases relationship with
  | symmetric kind first second =>
    have hNone : (Relationship.symmetric kind first second).brokenExposures model = [] := rfl
    rw [hNone, ite_self, List.append_nil, Relationship.directedSelf, List.append_nil]
    simp only [relationshipViolations, Relationship.symmetricSelf, Relationship.isSelf, Relationship.participants,
      beq_iff_eq]
  | directed relationship =>
    rw [← unknownExposed_eq_brokenExposures, relationshipViolations, Relationship.symmetricSelf, List.nil_append,
      Relationship.directedSelf]
    by_cases hSelf : relationship.upstream = relationship.downstream
    · simp [Relationship.isSelf, Relationship.participants, hSelf]
    · simp [Relationship.isSelf, Relationship.participants, hSelf]

/-! ## The findings of each code -/

section Codes

variable {code : RuleCode}

theorem code_unknownContexts {site : ReferenceSite} {names : List String} :
    ∀ violation ∈ model.unknownContexts site names, violation.code = .unknownContext :=
  List.forall_mem_map.mpr fun _ _ => rfl

variable {relationship : Relationship}

theorem code_symmetricSelf : ∀ violation ∈ relationship.symmetricSelf, violation.code = .symmetricSelf := by
  unfold Relationship.symmetricSelf
  split
  · split
    · exact List.forall_mem_singleton.mpr rfl
    · exact List.forall_mem_nil _
  · exact List.forall_mem_nil _

theorem code_directedSelf : ∀ violation ∈ relationship.directedSelf, violation.code = .directedSelf := by
  unfold Relationship.directedSelf
  split
  · exact List.forall_mem_nil _
  · split
    · exact List.forall_mem_singleton.mpr rfl
    · exact List.forall_mem_nil _

theorem code_reportedExposures :
    ∀ violation ∈ relationship.reportedExposures model, violation.code = .unknownExposed := by
  unfold Relationship.reportedExposures Relationship.brokenExposures
  split
  · exact List.forall_mem_nil _
  · split
    · exact List.forall_mem_nil _
    · split
      · exact List.forall_mem_nil _
      · exact List.forall_mem_map.mpr fun _ _ => rfl

/-- The violations of one relationship are of four kinds, each with its own code. -/
theorem ofCode_relationshipFindings (model : Model) (map : ContextMap) (relationship : Relationship) (code : RuleCode) :
    ofCode code (relationshipFindings model map relationship) =
      (relationshipLocation map relationship).findings
        (match code with
          | .unknownContext => model.unknownContexts .relationship relationship.contexts
          | .symmetricSelf => relationship.symmetricSelf
          | .directedSelf => relationship.directedSelf
          | .unknownExposed => relationship.reportedExposures model
          | _ => []) := by
  have hFindings : relationshipFindings model map relationship =
      (relationshipLocation map relationship).findings (model.unknownContexts .relationship relationship.contexts)
        ++ ((relationshipLocation map relationship).findings relationship.symmetricSelf
          ++ (relationshipLocation map relationship).findings relationship.directedSelf
          ++ (relationshipLocation map relationship).findings (relationship.reportedExposures model)) := by
    rw [relationshipFindings, filterMap_unknownContext?, distinctParticipants_eq_contexts, relationshipViolations_eq,
      List.map_append, List.map_append]
    rfl
  rw [hFindings, ofCode_append, ofCode_append, ofCode_append, ofCode_findings code_unknownContexts,
    ofCode_findings code_symmetricSelf, ofCode_findings code_directedSelf, ofCode_findings code_reportedExposures]
  cases code <;> simp [Location.findings]

theorem ofCode_validate_map {map : ContextMap} (h : model.contextMap = some map) (hCode : code.rule = .references) :
    model.validate.ofCode code =
      ofCode code ((Location.ofMap map).findings (model.unknownContexts .contains map.contains))
        ++ map.relationships.flatMap fun relationship => ofCode code (relationshipFindings model map relationship) := by
  rw [ofCode_validate, hCode, Rule.findings, h, Option.toList_some, List.flatMap_singleton, mapFindings, ofCode_append,
    ofCode_flatMap, filterMap_unknownContext?]

end Codes

/-! ## The whole report -/

theorem ite_nil_flatMap_sublist {α β : Type} (skips : α → Bool) (f : α → List β) (values : List α) :
    (values.flatMap fun value => if skips value then [] else f value).Sublist (values.flatMap f) := by
  induction values with
  | nil => exact .slnil
  | cons value values ih =>
    rw [List.flatMap_cons, List.flatMap_cons]
    refine List.Sublist.append ?_ ih
    cases skips value with
    | true => exact List.nil_sublist _
    | false => exact List.Sublist.refl _

/-- What is passed over is missing, even where equal values are left in: the lengths tell. -/
theorem ite_nil_flatMap_eq_iff {α β : Type} {skips : α → Bool} {f : α → List β} {values : List α} :
    (values.flatMap fun value => if skips value then [] else f value) = values.flatMap f ↔
      ∀ value ∈ values, skips value = true → f value = [] := by
  constructor
  · intro h
    induction values with
    | nil => exact List.forall_mem_nil _
    | cons value values ih =>
      rw [List.flatMap_cons, List.flatMap_cons] at h
      cases hSkips : skips value with
      | true =>
        rw [hSkips, if_pos rfl, List.nil_append] at h
        have hLength := congrArg List.length h
        have hRest := (ite_nil_flatMap_sublist skips f values).length_le
        rw [List.length_append] at hLength
        have hNil : f value = [] := List.length_eq_zero_iff.mp (by omega)
        rw [hNil, List.nil_append] at h
        exact List.forall_mem_cons.mpr ⟨fun _ => hNil, ih h⟩
      | false =>
        rw [hSkips, if_neg Bool.false_ne_true] at h
        exact List.forall_mem_cons.mpr ⟨fun hTrue => absurd (hSkips.symm.trans hTrue) Bool.false_ne_true,
          ih (List.append_cancel_left h)⟩
  · intro h
    refine List.flatMap_congr fun value hValue => ?_
    cases hSkips : skips value with
    | true => rw [if_pos rfl, h value hValue hSkips]
    | false => rw [if_neg Bool.false_ne_true]

theorem findings_reportedExposures (model : Model) (map : ContextMap) :
    map.findings (Relationship.reportedExposures model) = map.relationships.flatMap fun relationship =>
      if relationship.isSelf then []
      else (relationshipLocation map relationship).findings (relationship.brokenExposures model) := by
  refine List.flatMap_congr fun relationship _ => ?_
  rw [Relationship.reportedExposures]
  split
  · rfl
  · rfl

theorem reportsReferences_iff_of_contextMap {map : ContextMap} (h : model.contextMap = some map) :
    model.validate.ofCode .unknownContext =
        (Location.ofMap map).findings (model.unknownContexts .contains map.contains)
          ++ map.findings (fun relationship => model.unknownContexts .relationship relationship.contexts) ∧
      model.validate.ofCode .symmetricSelf = map.findings Relationship.symmetricSelf ∧
      model.validate.ofCode .directedSelf = map.findings Relationship.directedSelf ∧
      model.validate.ofCode .unknownExposed = map.findings (Relationship.reportedExposures model) ∧
      (model.ReportsReferences map ↔
        ∀ relationship ∈ map.relationships, relationship.isSelf = true → relationship.brokenExposures model = []) := by
  have hContains {code : RuleCode} := @ofCode_findings code .unknownContext _
    (@code_unknownContexts model .contains map.contains) (Location.ofMap map)
  have hUnknown : model.validate.ofCode .unknownContext = _ := ofCode_validate_map h rfl
  have hSymmetric : model.validate.ofCode .symmetricSelf = _ := ofCode_validate_map h rfl
  have hDirected : model.validate.ofCode .directedSelf = _ := ofCode_validate_map h rfl
  have hExposed : model.validate.ofCode .unknownExposed = _ := ofCode_validate_map h rfl
  simp only [ofCode_relationshipFindings, hContains] at hUnknown hSymmetric hDirected hExposed
  refine ⟨hUnknown, hSymmetric, hDirected, hExposed, ?_⟩
  have hWhole : map.findings (Relationship.reportedExposures model) = map.findings (Relationship.brokenExposures model) ↔
      ∀ relationship ∈ map.relationships, relationship.isSelf = true → relationship.brokenExposures model = [] := by
    rw [findings_reportedExposures, ContextMap.findings, ite_nil_flatMap_eq_iff]
    simp only [Location.findings, List.map_eq_nil_iff]
  rw [← hWhole]
  exact ⟨fun hReports => hExposed.symm.trans hReports.unknownExposed,
    fun hEqual => ⟨hUnknown, hSymmetric, hDirected, hExposed.trans hEqual⟩⟩

/-- Unknown contexts in `contains` and on both sides of a relationship, and an aggregate that is not where it is
looked for. -/
def brokenMap : ContextMap :=
  { contains := ["Sales", "Nowhere"]
    relationships := [
      .symmetric .partnership "Elsewhere" "Elsewhere",
      .directed { upstream := "Sales", downstream := "Stock", exposedAggregates := ["Ordering", "Missing"] }] }

def brokenReferences : Model :=
  { contextMap := some brokenMap
    boundedContexts := [{ name := "Sales", modules := [⟨"orders", [{ name := "Ordering" }]⟩] }] }

theorem reportsReferences_brokenReferences :
    brokenReferences.contextMap = some brokenMap ∧ brokenReferences.ReportsReferences brokenMap ∧
      brokenReferences.validate.findings.map (·.violation) =
        [.unknownContext "Nowhere" .contains, .unknownContext "Elsewhere" .relationship,
          .symmetricSelf "Elsewhere" .partnership, .unknownContext "Stock" .relationship,
          .unknownExposed "Missing" "Sales"] := by
  have hReports := (@reportsReferences_iff_of_contextMap brokenReferences brokenMap rfl).2.2.2.2
  exact ⟨rfl, hReports.mpr (by decide +kernel), by decide +kernel⟩

/-- A context that exposes to itself an aggregate that it does not have. -/
def selfExposingMap : ContextMap :=
  { relationships := [.directed { upstream := "Sales", downstream := "Sales", exposedAggregates := ["Missing"] }] }

def selfExposing : Model :=
  { contextMap := some selfExposingMap, boundedContexts := [{ name := "Sales" }] }

/-- Only the relationship as such is reported. -/
theorem not_reportsReferences_selfExposing :
    Model.ofSource "ContextMap \x7b Sales -> Sales \x7b exposedAggregates = Missing \x7d \x7d BoundedContext Sales \x7b\x7d" =
        .ok selfExposing ∧
      ¬ selfExposing.ReportsReferences selfExposingMap ∧
      selfExposing.validate.findings.map (·.violation) = [.directedSelf "Sales"] := by
  refine ⟨by decide +kernel, fun hReports => ?_, by decide +kernel⟩
  have hMissing : selfExposing.validate.ofCode .unknownExposed ≠
      selfExposingMap.findings (Relationship.brokenExposures selfExposing) := by
    decide +kernel
  exact hMissing hReports.unknownExposed

end DomainAtlas
