import DomainAtlas.Proofs.Validation.Keeping

/-! # The findings of one code

A report is put together rule by rule, and each code belongs to one rule: the findings of a code are found in the part
of that rule.
-/
set_option autoImplicit false

namespace DomainAtlas

open Validation

/-- The rules, in the order in which a report goes through them. -/
inductive Rule
  | contexts
  | structures
  | sharedNames
  | references
  | types
  | names
  deriving DecidableEq, Repr

def Rule.findings (model : Model) : Rule → List Finding
  | contexts => repeatedContexts model
  | structures => model.elements.flatMap structureFindings
  | sharedNames => Validation.sharedNames model
  | references => model.contextMap.toList.flatMap (mapFindings model)
  | types => model.elements.flatMap typeFindings
  | names => model.elements.filterMap nameFinding?

def RuleCode.rule : RuleCode → Rule
  | repeatedContext => .contexts
  | repeatedAggregate | repeatedEntity | repeatedValueObject | manyRoots | noRoot => .structures
  | sharedName => .sharedNames
  | unknownContext | symmetricSelf | directedSelf | unknownExposed => .references
  | invalidType => .types
  | reservedName => .names

/-- The findings with a code. -/
def ofCode (code : RuleCode) (findings : List Finding) : List Finding :=
  findings.filter fun finding => finding.code == code

def Report.ofCode (report : Report) (code : RuleCode) : List Finding :=
  DomainAtlas.ofCode code report.findings

variable {code : RuleCode}

theorem ofCode_append (findings more : List Finding) : ofCode code (findings ++ more) = ofCode code findings ++ ofCode code more :=
  List.filter_append ..

theorem ofCode_flatMap {α : Type} (f : α → List Finding) (values : List α) :
    ofCode code (values.flatMap f) = values.flatMap fun value => ofCode code (f value) :=
  List.filter_flatMap ..

theorem ofCode_eq_nil {findings : List Finding} (h : Lacks code findings) : ofCode code findings = [] :=
  List.filter_eq_nil_iff.mpr fun finding hFinding hCode => h finding hFinding (beq_iff_eq.mp hCode)

theorem ofCode_eq_self {findings : List Finding} (h : ∀ finding ∈ findings, finding.code = code) :
    ofCode code findings = findings :=
  List.filter_eq_self.mpr fun finding hFinding => beq_iff_eq.mpr (h finding hFinding)

/-! ## Violations at one place -/

def Location.findings (location : Location) (violations : List Violation) : List Finding :=
  violations.map fun violation => ⟨violation, location⟩

theorem ofCode_findings {own : RuleCode} {violations : List Violation} (h : ∀ violation ∈ violations, violation.code = own)
    (location : Location) :
    ofCode code (location.findings violations) = if own = code then location.findings violations else [] := by
  have hOwn : ∀ finding ∈ location.findings violations, finding.code = own := List.forall_mem_map.mpr h
  by_cases hCode : own = code
  · rw [if_pos hCode]
    exact ofCode_eq_self fun finding hFinding => (hOwn finding hFinding).trans hCode
  · rw [if_neg hCode]
    exact ofCode_eq_nil fun finding hFinding hEq => hCode ((hOwn finding hFinding).symm.trans hEq)

/-! ## The rules of a report -/

variable {model : Model}

/-- A rule reports its own codes only. -/
theorem lacks_findings {rule : Rule} (h : code.rule ≠ rule) : Lacks code (rule.findings model) := by
  have hNot : ∀ other : RuleCode, other.rule = rule → code ≠ other := fun other hOther hCode => h (hCode ▸ hOther)
  cases rule with
  | contexts => exact lacks_repeatedContexts.mpr fun hCode => absurd hCode (hNot _ rfl)
  | structures =>
    refine lacks_flatMap.mpr fun located _ => lacks_structureFindings.mpr ?_
    cases located.element with
    | boundedContext context => exact fun hCode => absurd hCode (hNot _ rfl)
    | aggregate aggregate =>
      exact ⟨⟨fun hCode => absurd hCode (hNot _ rfl), fun hCode => absurd hCode (hNot _ rfl)⟩,
        fun hCode => absurd hCode (hNot _ rfl), fun hCode => absurd hCode (hNot _ rfl)⟩
    | _ => trivial
  | sharedNames => exact lacks_sharedNames.mpr fun hCode => absurd hCode (hNot _ rfl)
  | references =>
    refine lacks_flatMap.mpr fun map _ => lacks_mapFindings.mpr ⟨fun hCode => absurd hCode (hNot _ rfl), ?_⟩
    exact fun relationship _ => ⟨fun hCode => absurd hCode (hNot _ rfl),
      related_of_other (hNot _ rfl) (hNot _ rfl) (hNot _ rfl)⟩
  | types => exact lacks_flatMap.mpr fun _ _ => lacks_typeFindings.mpr fun hCode => absurd hCode (hNot _ rfl)
  | names => exact lacks_nameFindings.mpr fun _ _ hCode => absurd hCode (hNot _ rfl)

theorem ofCode_validate (model : Model) (code : RuleCode) :
    model.validate.ofCode code = ofCode code (code.rule.findings model) := by
  have hRules : model.validate.findings =
      Rule.contexts.findings model ++ Rule.structures.findings model ++ Rule.sharedNames.findings model
        ++ Rule.references.findings model ++ Rule.types.findings model ++ Rule.names.findings model := rfl
  have hOther : ∀ rule, code.rule ≠ rule → ofCode code (rule.findings model) = [] :=
    fun rule h => ofCode_eq_nil (lacks_findings h)
  rw [Report.ofCode, hRules]
  simp only [ofCode_append]
  cases hRule : code.rule <;> simp [hOther, hRule]

end DomainAtlas
