import DomainAtlas.Diagnostic
import DomainAtlas.TypeGuard
import DomainAtlas.Validation.Occurrence
/-!
# Findings and reports

A finding is a rule that a model breaks, with the place where it breaks it. Code, severity, wording and
advice follow from the violation.
-/
set_option autoImplicit false

namespace DomainAtlas

inductive RuleCode
  | repeatedContext
  | repeatedAggregate
  | repeatedEntity
  | repeatedValueObject
  | manyRoots
  | noRoot
  | sharedName
  | unknownContext
  | symmetricSelf
  | directedSelf
  | unknownExposed
  | invalidType
  | reservedName
  deriving DecidableEq, Repr

namespace RuleCode

def text : RuleCode → String
  | repeatedContext => "E200"
  | repeatedAggregate => "E201"
  | repeatedEntity => "E202"
  | repeatedValueObject => "E203"
  | manyRoots => "E204"
  | noRoot => "E205"
  | sharedName => "E206"
  | unknownContext => "E207"
  | symmetricSelf => "E208"
  | directedSelf => "E209"
  | unknownExposed => "E210"
  | invalidType => "E211"
  | reservedName => "E212"

def description : RuleCode → String
  | repeatedContext => "Duplicate bounded context"
  | repeatedAggregate => "Duplicate aggregate"
  | repeatedEntity => "Duplicate entity"
  | repeatedValueObject => "Duplicate value object"
  | manyRoots => "Multiple aggregate roots"
  | noRoot => "Missing aggregate root"
  | sharedName => "Domain object name not unique"
  | unknownContext => "Unknown bounded context"
  | symmetricSelf => "Symmetric self-relationship"
  | directedSelf => "Upstream-downstream self-relationship"
  | unknownExposed => "Unknown exposed aggregate"
  | invalidType => "Invalid type"
  | reservedName => "Reserved name"

/-- A model that breaks only rules of severity `warning` is valid. -/
def severity : RuleCode → Severity
  | noRoot => .warning
  | symmetricSelf => .warning
  | unknownExposed => .warning
  | _ => .error

end RuleCode

inductive ReferenceSite
  | contains
  | relationship
  deriving DecidableEq, Repr

def ReferenceSite.text : ReferenceSite → String
  | contains => "`contains`"
  | relationship => "relationship"

inductive TypeSite
  | attribute (name : String)
  | returned (operation : String)
  | parameter (name operation : String)
  deriving DecidableEq, Repr

def TypeSite.text : TypeSite → String
  | .attribute name => "attribute `" ++ name ++ "`"
  | .returned operation => "return value of `" ++ operation ++ "`"
  | .parameter name operation => "parameter `" ++ name ++ "` of `" ++ operation ++ "`"

inductive Violation
  | repeatedContext (name : String) (count : Nat)
  | repeatedAggregate (name : String) (count : Nat) (context : String)
  | repeatedEntity (name : String) (count : Nat)
  | repeatedValueObject (name : String) (count : Nat)
  | manyRoots (aggregate first : String) (others : List String)
  | noRoot (aggregate : String)
  | sharedName (name : String) (occurrences : List Occurrence)
  | unknownContext (name : String) (site : ReferenceSite)
  | symmetricSelf (context : String) (kind : SymmetricKind)
  | directedSelf (context : String)
  | unknownExposed (aggregate context : String)
  | invalidType (site : TypeSite) (reason : InvalidType)
  | reservedName (kind : Keyword) (name reserved : String)
  deriving DecidableEq, Repr

namespace Violation

def code : Violation → RuleCode
  | repeatedContext .. => .repeatedContext
  | repeatedAggregate .. => .repeatedAggregate
  | repeatedEntity .. => .repeatedEntity
  | repeatedValueObject .. => .repeatedValueObject
  | manyRoots .. => .manyRoots
  | noRoot .. => .noRoot
  | sharedName .. => .sharedName
  | unknownContext .. => .unknownContext
  | symmetricSelf .. => .symmetricSelf
  | directedSelf .. => .directedSelf
  | unknownExposed .. => .unknownExposed
  | invalidType .. => .invalidType
  | reservedName .. => .reservedName

def timesText (kind name : String) (count : Nat) : String :=
  kind ++ " `" ++ name ++ "` is declared " ++ toString count ++ " times"

def message : Violation → String
  | repeatedContext name count => timesText "bounded context" name count
  | repeatedAggregate name count context =>
    timesText "aggregate" name count ++ " in bounded context `" ++ context ++ "`"
  | repeatedEntity name count => timesText "entity" name count
  | repeatedValueObject name count => timesText "value object" name count
  | manyRoots aggregate first others =>
    "aggregate `" ++ aggregate ++ "` has " ++ toString (others.length + 1) ++ " aggregate roots: "
      ++ ", ".intercalate (first :: others)
  | noRoot aggregate => "aggregate `" ++ aggregate ++ "` has entities but no aggregate root"
  | sharedName name occurrences =>
    "domain object name `" ++ name ++ "` is used in " ++ toString occurrences.length ++ " places: "
      ++ "; ".intercalate (occurrences.map Occurrence.text)
  | unknownContext name site => site.text ++ " references unknown bounded context `" ++ name ++ "`"
  | symmetricSelf context kind =>
    "bounded context `" ++ context ++ "` has a " ++ kind.keyword.text ++ " relationship with itself"
  | directedSelf context => "bounded context `" ++ context ++ "` cannot be upstream of itself"
  | unknownExposed aggregate context =>
    "exposed aggregate `" ++ aggregate ++ "` is not declared in upstream context `" ++ context ++ "`"
  | invalidType site reason => "invalid type for " ++ site.text ++ ": " ++ reason.message
  | reservedName kind name _ => kind.text ++ " name `" ++ name ++ "` is reserved"

/-- The names that result from putting the contexts' names in front, once each. -/
def prefixedNames (name : String) (occurrences : List Occurrence) : List String :=
  occurrences.foldl
    (fun names occurrence =>
      let longer := occurrence.context ++ name
      if longer ∈ names then names else names ++ [longer])
    []

def suggestion? : Violation → Option String
  | repeatedContext .. => some "merge the declarations or rename all but one"
  | manyRoots _ first _ => some ("keep `aggregateRoot` on `" ++ first ++ "` only")
  | noRoot _ => some "mark one entity with `aggregateRoot`"
  | sharedName name occurrences =>
    some ("prefix the names with their bounded context, e.g. "
      ++ ", ".intercalate ((prefixedNames name occurrences).map fun longer => "`" ++ longer ++ "`"))
  | unknownContext name _ => some ("declare `BoundedContext " ++ name ++ "` or fix the reference")
  | invalidType _ reason => some reason.suggestion
  | reservedName _ _ reserved =>
    some ("rename it, e.g. to " ++ ", ".intercalate (alternativeNames reserved))
  | _ => none

end Violation

structure Finding where
  violation : Violation
  location : Location
  deriving DecidableEq, Repr

namespace Finding

def code (finding : Finding) : RuleCode :=
  finding.violation.code

def severity (finding : Finding) : Severity :=
  finding.code.severity

def message (finding : Finding) : String :=
  finding.violation.message

def suggestion? (finding : Finding) : Option String :=
  finding.violation.suggestion?

def located (finding : Finding) : String :=
  finding.message ++ " (at " ++ finding.location.text ++ ")"

def text (finding : Finding) : String :=
  finding.severity.text ++ "[" ++ finding.code.text ++ "]: " ++ finding.located
    ++ (match finding.suggestion? with
      | some advice => "; help: " ++ advice
      | none => "")

end Finding

structure Report where
  findings : List Finding
  deriving DecidableEq, Repr

namespace Report

def errors (report : Report) : List Finding :=
  report.findings.filter fun finding => finding.severity == .error

def warnings (report : Report) : List Finding :=
  report.findings.filter fun finding => finding.severity == .warning

def isValid (report : Report) : Bool :=
  report.errors.isEmpty

def hasWarnings (report : Report) : Bool :=
  !report.warnings.isEmpty

def countText (count : Nat) (noun : String) : String :=
  toString count ++ " " ++ noun ++ (if count = 1 then "" else "s")

def text (report : Report) : String :=
  countText report.errors.length "error" ++ ", " ++ countText report.warnings.length "warning"

end Report

end DomainAtlas
