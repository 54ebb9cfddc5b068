import DomainAtlas.Validation.Report
/-!
# Why an edit is refused
-/
set_option autoImplicit false

namespace DomainAtlas

inductive Container
  | model
  | boundedContext (name : String)
  | aggregate (name : String)
  deriving DecidableEq, Repr

def Container.text : Container → String
  | .model => "the model"
  | .boundedContext name => "bounded context `" ++ name ++ "`"
  | .aggregate name => "aggregate `" ++ name ++ "`"

inductive Rejection
  | emptyName (raw : String)
  | reservedName (name reserved : String)
  | invalidType (site : TypeSite) (reason : InvalidType)
  | duplicate (kind : Keyword) (name : String) (container : Container)
  /-- The name has another use in the model; the element was meant for the context `context`. -/
  | nameInUse (name : String) (existing : Occurrence) (context : String)
  | unknownContext (name : String)
  | unknownModule (context module : String)
  | unknownAggregate (context aggregate : String)
  deriving DecidableEq, Repr

namespace Rejection

def message : Rejection → String
  | emptyName raw => "name `" ++ raw ++ "` contains no identifier characters"
  | reservedName name _ => "`" ++ name ++ "` is a reserved name"
  | invalidType site reason => "invalid type for " ++ site.text ++ ": " ++ reason.message
  | duplicate kind name container =>
    kind.text ++ " `" ++ name ++ "` already exists in " ++ container.text
  | nameInUse name existing _ => "name `" ++ name ++ "` is already used by " ++ existing.text
  | unknownContext name => "unknown bounded context `" ++ name ++ "`"
  | unknownModule context module =>
    "unknown module `" ++ module ++ "` in bounded context `" ++ context ++ "`"
  | unknownAggregate context aggregate =>
    "unknown aggregate `" ++ aggregate ++ "` in bounded context `" ++ context ++ "`"

/-- What to take instead of the name or the type that was refused. -/
def suggestion? : Rejection → Option String
  | reservedName _ reserved => (alternativeNames reserved).head?
  | invalidType _ reason => some reason.suggestion
  | nameInUse name _ context => some (context ++ name)
  | _ => none

end Rejection

inductive EditError
  | rejected (rejection : Rejection)
  /-- Of `total` elements some are refused, each with its index among them. -/
  | batch (total : Nat) (failures : List (Nat × Rejection))
  deriving DecidableEq, Repr

namespace EditError

def message : EditError → String
  | rejected rejection => rejection.message
  | batch total failures =>
    toString failures.length ++ " of " ++ toString total ++ " elements rejected"

def suggestion? : EditError → Option String
  | rejected rejection => rejection.suggestion?
  | batch _ failures => failures.head?.bind fun failure => failure.2.suggestion?

end EditError

end DomainAtlas
