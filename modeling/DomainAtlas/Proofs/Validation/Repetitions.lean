import DomainAtlas.Proofs.Validation.ByCode
import DomainAtlas.Proofs.Validation.Traversal
import Mathlib.Data.List.Induction
import Mathlib.Data.List.Sort

/-! # The report on repeated names

The names of the contexts are counted, those of the aggregates of each context, and those of the entities and of the
value objects of each aggregate. The report has one finding for each name that is repeated there, which says how often;
the findings come in the order in which the names occur first.
-/
set_option autoImplicit false

namespace DomainAtlas

open Validation

/-! ## Counts of repeated names -/

/-- The name of one entry occurs among `names` before that of another one does. -/
def OccursBefore (names : List String) (earlier later : String × Nat) : Prop :=
  names.idxOf earlier.1 < names.idxOf later.1

instance (names : List String) : Std.Irrefl (OccursBefore names) :=
  ⟨fun _ => Nat.lt_irrefl _⟩

instance (names : List String) : Std.Antisymm (OccursBefore names) :=
  ⟨fun _ _ hBefore hAfter => absurd hBefore (Nat.lt_asymm hAfter)⟩

/-- The names that occur twice or more often, each with the number of its occurrences, in the order in which they occur
first. -/
structure CountsRepetitions (names : List String) (counts : List (String × Nat)) : Prop where
  counted : ∀ name count, (name, count) ∈ counts ↔ 2 ≤ count ∧ names.count name = count
  inOrder : counts.Pairwise (OccursBefore names)

theorem pairwise_idxOf_eraseDups (names : List String) :
    names.eraseDups.Pairwise fun earlier later => names.idxOf earlier < names.idxOf later := by
  induction names using List.reverseRecOn with
  | nil => exact .nil
  | append_singleton front name ih =>
    have hFront : front.eraseDups.Pairwise fun earlier later =>
        (front ++ [name]).idxOf earlier < (front ++ [name]).idxOf later := by
      refine ih.imp_of_mem fun hEarlier hLater hLt => ?_
      rwa [List.idxOf_append_of_mem (List.mem_eraseDups.mp hEarlier),
        List.idxOf_append_of_mem (List.mem_eraseDups.mp hLater)]
    by_cases hName : name ∈ front
    · rwa [eraseDups_concat_of_mem hName]
    · rw [eraseDups_concat_of_not_mem hName]
      refine List.pairwise_append.mpr ⟨hFront, List.pairwise_singleton _ _, fun earlier hEarlier later hLater => ?_⟩
      obtain rfl := List.mem_singleton.mp hLater
      have hBefore := List.mem_eraseDups.mp hEarlier
      rw [List.idxOf_append_of_mem hBefore, List.idxOf_append_of_notMem hName]
      have hLt := List.idxOf_lt_length_of_mem hBefore
      omega

theorem countsRepetitions_repeated (names : List String) : CountsRepetitions names (repeated names) where
  counted name count := by
    rw [mem_repeated, and_comm]
    exact and_congr Iff.rfl eq_comm
  inOrder := by
    rw [repeated_eq]
    refine List.Pairwise.filter _ ?_
    rw [List.pairwise_map]
    exact pairwise_idxOf_eraseDups names

/-- No other list counts the repetitions. -/
theorem repeated_eq_iff {names : List String} {counts : List (String × Nat)} :
    repeated names = counts ↔ CountsRepetitions names counts := by
  constructor
  · rintro rfl
    exact countsRepetitions_repeated names
  · intro h
    have hOwn := countsRepetitions_repeated names
    refine List.Pairwise.eq_of_mem_iff hOwn.inOrder h.inOrder fun ⟨name, count⟩ => ?_
    rw [hOwn.counted, h.counted]

example : repeated ["Shop", "Stock", "Till", "Stock", "Shop", "Stock"] = [("Shop", 2), ("Stock", 3)] := by decide

/-! ## Findings on repeated names -/

/-- One finding for each repeated name, told by its location and its wording. -/
def TellsRepetitions (names : List String) (place : String → Location) (wording : String → Nat → String)
    (findings : List Finding) : Prop :=
  ∃! counts, CountsRepetitions names counts ∧
    findings.map (fun finding => (finding.location, finding.message)) =
      counts.map fun entry => (place entry.1, wording entry.1 entry.2)

/-- The findings of one owner after the other. -/
def OwnerByOwner {α : Type} (owners : List α) (findings : List Finding) (Tells : α → List Finding → Prop) : Prop :=
  ∃ part : α → List Finding, findings = owners.flatMap part ∧ ∀ owner ∈ owners, Tells owner (part owner)

/-- What the report says of repeated names, code by code. -/
structure Model.ReportsRepetitions (model : Model) : Prop where
  contexts : TellsRepetitions model.contextNames Location.ofContext
    (fun name count => "bounded context `" ++ name ++ "` is declared " ++ toString count ++ " times")
    (model.validate.ofCode .repeatedContext)
  aggregates : OwnerByOwner model.boundedContexts (model.validate.ofCode .repeatedAggregate) fun context =>
    TellsRepetitions (context.aggregateList.map (·.name)) (fun _ => Location.ofContext context.name)
      fun name count => "aggregate `" ++ name ++ "` is declared " ++ toString count
        ++ " times in bounded context `" ++ context.name ++ "`"
  entities : OwnerByOwner model.sitedAggregates (model.validate.ofCode .repeatedEntity) fun owner =>
    TellsRepetitions (owner.placed.aggregate.entities.map (·.name)) (fun _ => owner.location)
      fun name count => "entity `" ++ name ++ "` is declared " ++ toString count ++ " times"
  valueObjects : OwnerByOwner model.sitedAggregates (model.validate.ofCode .repeatedValueObject) fun owner =>
    TellsRepetitions (owner.placed.aggregate.valueObjects.map (·.name)) (fun _ => owner.location)
      fun name count => "value object `" ++ name ++ "` is declared " ++ toString count ++ " times"

theorem message_repeatedAggregate (name context : String) (count : Nat) :
    (Violation.repeatedAggregate name count context).message =
      "aggregate `" ++ name ++ "` is declared " ++ toString count ++ " times in bounded context `" ++ context ++ "`" := by
  have hTimes : " times in bounded context `" = " times" ++ " in bounded context `" := rfl
  rw [hTimes, ← String.append_assoc]
  rfl

theorem tellsRepetitions_of_message {wording : String → Nat → String} {violation : String × Nat → Violation}
    (hText : ∀ entry, (violation entry).message = wording entry.1 entry.2) (names : List String)
    (place : String → Location) :
    TellsRepetitions names place wording ((repeated names).map fun entry => ⟨violation entry, place entry.1⟩) := by
  refine ⟨repeated names, ⟨countsRepetitions_repeated names, ?_⟩, fun counts h => (repeated_eq_iff.mpr h.1).symm⟩
  rw [List.map_map]
  exact List.map_congr_left fun entry _ => Prod.ext rfl (hText entry)

/-! ## Where the findings come from -/

theorem ofCode_repeated {own : RuleCode} {violation : String × Nat → Violation}
    (hOwn : ∀ entry, (violation entry).code = own) (names : List String) (location : Location) (code : RuleCode) :
    ofCode code (location.findings ((repeated names).map violation)) =
      if own = code then (repeated names).map fun entry => ⟨violation entry, location⟩ else [] := by
  rw [ofCode_findings (List.forall_mem_map.mpr fun entry _ => hOwn entry), Location.findings, List.map_map]
  rfl

theorem ofCode_structureFindings_eq_nil {code : RuleCode} {element : Element} (location : Location)
    (h : Structured code element) : ofCode code (structureFindings ⟨element, location⟩) = [] :=
  ofCode_eq_nil (lacks_structureFindings.mpr h)

theorem ofCode_repeatedContext (model : Model) :
    model.validate.ofCode .repeatedContext =
      (repeated model.contextNames).map fun entry =>
        ⟨.repeatedContext entry.1 entry.2, Location.ofContext entry.1⟩ := by
  have hCodes : ∀ finding ∈ repeatedContexts model, finding.code = .repeatedContext :=
    List.forall_mem_map.mpr fun _ _ => rfl
  rw [ofCode_validate]
  exact ofCode_eq_self hCodes

theorem ofCode_repeatedAggregate (model : Model) :
    model.validate.ofCode .repeatedAggregate = model.boundedContexts.flatMap fun context =>
      (repeated (context.aggregateList.map (·.name))).map fun entry =>
        ⟨.repeatedAggregate entry.1 entry.2 context.name, Location.ofContext context.name⟩ := by
  have hRule : model.validate.ofCode .repeatedAggregate =
      ofCode .repeatedAggregate (model.elements.flatMap structureFindings) :=
    ofCode_validate model .repeatedAggregate
  rw [hRule, ofCode_flatMap, flatMap_elements_contexts]
  · refine List.flatMap_congr fun context _ => ?_
    have hAggregates := @ofCode_repeated .repeatedAggregate
      (fun entry => .repeatedAggregate entry.1 entry.2 context.name) (fun _ => rfl)
      (context.allAggregates.map (·.name)) (Location.ofContext context.name) .repeatedAggregate
    rw [← context.allAggregates_eq]
    exact hAggregates.trans (if_pos rfl)
  · intro element location hOther
    refine ofCode_structureFindings_eq_nil location ?_
    cases element with
    | boundedContext context => exact absurd rfl (hOther context)
    | aggregate aggregate => simp [Structured]
    | _ => trivial

section Members

variable {code : RuleCode} (hMember : code = .repeatedEntity ∨ code = .repeatedValueObject)

include hMember

/-- Of what an aggregate is reported for, only the repetitions have such a code. -/
theorem ofCode_structureFindings_aggregate (aggregate : Aggregate) (location : Location) :
    ofCode code (structureFindings ⟨.aggregate aggregate, location⟩) =
      (if .repeatedEntity = code then (repeated (aggregate.entities.map (·.name))).map
          fun entry => ⟨.repeatedEntity entry.1 entry.2, location⟩ else [])
        ++ if .repeatedValueObject = code then (repeated (aggregate.valueObjects.map (·.name))).map
          fun entry => ⟨.repeatedValueObject entry.1 entry.2, location⟩ else [] := by
  have hRoots : ofCode code (location.findings (rootViolations aggregate)) = [] := by
    refine ofCode_eq_nil (lacks_located.mpr (forall_rootViolations_iff.mpr ?_))
    rcases hMember with rfl | rfl <;> simp
  have hSplit : structureFindings ⟨.aggregate aggregate, location⟩ =
      location.findings ((repeated (aggregate.entities.map (·.name))).map fun entry => .repeatedEntity entry.1 entry.2)
        ++ location.findings ((repeated (aggregate.valueObjects.map (·.name))).map
          fun entry => .repeatedValueObject entry.1 entry.2)
        ++ location.findings (rootViolations aggregate) := by
    simp only [Location.findings, ← List.map_append]
    rfl
  have hEntities := fun names => @ofCode_repeated .repeatedEntity (fun entry => .repeatedEntity entry.1 entry.2)
    (fun _ => rfl) names location code
  have hValueObjects := fun names => @ofCode_repeated .repeatedValueObject
    (fun entry => .repeatedValueObject entry.1 entry.2) (fun _ => rfl) names location code
  rw [hSplit, ofCode_append, ofCode_append, hRoots, List.append_nil, hEntities, hValueObjects]

theorem ofCode_member (model : Model) :
    model.validate.ofCode code = model.sitedAggregates.flatMap fun owner =>
      ofCode code (structureFindings ⟨.aggregate owner.placed.aggregate, owner.location⟩) := by
  have hRule : code.rule = .structures := by
    rcases hMember with rfl | rfl <;> rfl
  rw [ofCode_validate, hRule, Rule.findings, ofCode_flatMap, flatMap_elements_model]
  intro element location hOther
  refine ofCode_structureFindings_eq_nil location ?_
  cases element with
  | boundedContext context => rcases hMember with rfl | rfl <;> simp [Structured]
  | aggregate aggregate => exact absurd rfl (hOther aggregate)
  | _ => trivial

end Members

theorem ofCode_repeatedEntity (model : Model) :
    model.validate.ofCode .repeatedEntity = model.sitedAggregates.flatMap fun owner =>
      (repeated (owner.placed.aggregate.entities.map (·.name))).map fun entry =>
        ⟨.repeatedEntity entry.1 entry.2, owner.location⟩ := by
  rw [ofCode_member (.inl rfl)]
  refine List.flatMap_congr fun owner _ => ?_
  rw [ofCode_structureFindings_aggregate (.inl rfl), if_pos rfl, if_neg (by decide), List.append_nil]

theorem ofCode_repeatedValueObject (model : Model) :
    model.validate.ofCode .repeatedValueObject = model.sitedAggregates.flatMap fun owner =>
      (repeated (owner.placed.aggregate.valueObjects.map (·.name))).map fun entry =>
        ⟨.repeatedValueObject entry.1 entry.2, owner.location⟩ := by
  rw [ofCode_member (.inr rfl)]
  refine List.flatMap_congr fun owner _ => ?_
  rw [ofCode_structureFindings_aggregate (.inr rfl), if_neg (by decide), if_pos rfl, List.nil_append]

/-- Nothing is missed, counted wrong, told twice or told out of order. -/
theorem validate_reportsRepetitions (model : Model) : model.ReportsRepetitions where
  contexts := by
    rw [ofCode_repeatedContext]
    exact tellsRepetitions_of_message (fun _ => rfl) _ _
  aggregates := ⟨_, ofCode_repeatedAggregate model, fun context _ =>
    tellsRepetitions_of_message (fun entry => message_repeatedAggregate entry.1 context.name entry.2) _
      fun _ => Location.ofContext context.name⟩
  entities := ⟨_, ofCode_repeatedEntity model, fun owner _ =>
    tellsRepetitions_of_message (fun _ => rfl) _ fun _ => owner.location⟩
  valueObjects := ⟨_, ofCode_repeatedValueObject model, fun owner _ =>
    tellsRepetitions_of_message (fun _ => rfl) _ fun _ => owner.location⟩

end DomainAtlas
