import DomainAtlas.Validation.Elements
import DomainAtlas.Validation.Report
/-!
# The rules of the language

What a model has to keep to: names are not repeated, references find what they name, aggregates have one
root, types are accepted and names are not reserved. `validate` reports every breach, rule by rule.
-/
set_option autoImplicit false

namespace DomainAtlas

namespace Validation

/-- Adds a value to the group of `name`, or opens a group for it behind the others. -/
def addToGroup {α : Type} (name : String) (value : α) :
    List (String × List α) → List (String × List α)
  | [] => [(name, [value])]
  | (other, values) :: groups =>
    if other = name then (other, values ++ [value]) :: groups
    else (other, values) :: addToGroup name value groups

/-- The values of each name, the names in order of first occurrence. -/
def group {α : Type} (entries : List (String × α)) : List (String × List α) :=
  entries.foldl (fun groups entry => addToGroup entry.1 entry.2 groups) []

/-- The names that occur more than once, with their counts, in order of first occurrence. -/
def repeated (names : List String) : List (String × Nat) :=
  ((group (names.map fun name => (name, ()))).map fun entry => (entry.1, entry.2.length)).filter
    fun entry => 1 < entry.2

def repeatedContexts (model : Model) : List Finding :=
  (repeated (model.boundedContexts.map (·.name))).map fun entry =>
    ⟨.repeatedContext entry.1 entry.2, Location.ofContext entry.1⟩

def repeatedAggregates (context : BoundedContext) : List Violation :=
  (repeated (context.allAggregates.map (·.name))).map fun entry =>
    .repeatedAggregate entry.1 entry.2 context.name

def repeatedMembers (aggregate : Aggregate) : List Violation :=
  (repeated (aggregate.entities.map (·.name))).map (fun entry => .repeatedEntity entry.1 entry.2)
    ++ (repeated (aggregate.valueObjects.map (·.name))).map
      fun entry => .repeatedValueObject entry.1 entry.2

def rootViolations (aggregate : Aggregate) : List Violation :=
  match (aggregate.entities.filter (·.isRoot)).map (·.name) with
  | [] => if aggregate.entities.isEmpty then [] else [.noRoot aggregate.name]
  | [_] => []
  | first :: others => [.manyRoots aggregate.name first others]

def structureFindings (located : LocatedElement) : List Finding :=
  match located.element with
  | .boundedContext context =>
    (repeatedAggregates context).map fun violation => ⟨violation, located.location⟩
  | .aggregate aggregate =>
    (repeatedMembers aggregate ++ rootViolations aggregate).map
      fun violation => ⟨violation, located.location⟩
  | _ => []

/-- Whether all uses are entities, or all value objects, of one aggregate: these are reported there. -/
def reportedInAggregate (first : Occurrence) (others : List Occurrence) : Bool :=
  (first.kind == .entity || first.kind == .valueObject)
    && others.all fun other => other.kind == first.kind && other.aggregate == first.aggregate

def sharedName (name : String) : List Occurrence → Option Finding
  | [] => none
  | [_] => none
  | first :: others =>
    if reportedInAggregate first others then none
    else some ⟨.sharedName name (first :: others), first.aggregate⟩

def sharedNames (model : Model) : List Finding :=
  (group model.occurrences).filterMap fun entry => sharedName entry.1 entry.2

def unknownContext? (model : Model) (site : ReferenceSite) (location : Location) (name : String) :
    Option Finding :=
  if model.hasContext name then none else some ⟨.unknownContext name site, location⟩

def relationshipLocation (map : ContextMap) (relationship : Relationship) : Location :=
  let arrow := match relationship with
    | .symmetric kind _ _ => kind.keyword.text
    | .directed _ => "->"
  (Location.ofMap map).child "Relationship"
    (relationship.participants.1 ++ " " ++ arrow ++ " " ++ relationship.participants.2)

/-- The participants of a relationship; one that stands on both sides is given once. -/
def distinctParticipants (relationship : Relationship) : List String :=
  if relationship.isSelf then [relationship.participants.1]
  else [relationship.participants.1, relationship.participants.2]

/-- The exposed aggregates that the upstream context does not have, unless there is no such context. -/
def unknownExposed (model : Model) (relationship : DirectedRelationship) : List Violation :=
  match model.findContext? relationship.upstream with
  | none => []
  | some upstream =>
    (relationship.exposedAggregates.filter fun name => !upstream.context.hasAggregate name).map
      fun name => .unknownExposed name relationship.upstream

def relationshipViolations (model : Model) (relationship : Relationship) : List Violation :=
  match relationship with
  | .symmetric kind first _ => if relationship.isSelf then [.symmetricSelf first kind] else []
  | .directed directed =>
    if relationship.isSelf then [.directedSelf directed.upstream] else unknownExposed model directed

def relationshipFindings (model : Model) (map : ContextMap) (relationship : Relationship) :
    List Finding :=
  let location := relationshipLocation map relationship
  (distinctParticipants relationship).filterMap (unknownContext? model .relationship location)
    ++ (relationshipViolations model relationship).map fun violation => ⟨violation, location⟩

def mapFindings (model : Model) (map : ContextMap) : List Finding :=
  map.contains.filterMap (unknownContext? model .contains (Location.ofMap map))
    ++ map.relationships.flatMap (relationshipFindings model map)

def mentionedTypes : Element → List (TypeSite × String)
  | .attribute member => [(.attribute member.name, member.type)]
  | .operation member =>
    member.returnType.toList.map (fun type => (.returned member.name, type))
      ++ member.parameters.map fun parameter => (.parameter parameter.name member.name, parameter.type)
  | _ => []

def typeFindings (located : LocatedElement) : List Finding :=
  (mentionedTypes located.element).filterMap fun mention =>
    match acceptType mention.2 with
    | .ok _ => none
    | .error reason => some ⟨.invalidType mention.1 reason, located.location⟩

/-- Kind and name of the elements whose names may be reserved. -/
def guardedName? : Element → Option (Keyword × String)
  | .aggregate aggregate => some (.aggregate, aggregate.name)
  | .entity entity => some (.entity, entity.name)
  | .valueObject object => some (.valueObject, object.name)
  | .domainEvent object => some (.domainEvent, object.name)
  | .command object => some (.command, object.name)
  | .service service => some (.service, service.name)
  | _ => none

def nameFinding? (located : LocatedElement) : Option Finding := do
  let (kind, name) ← guardedName? located.element
  let reserved ← reservedSpelling? name
  return ⟨.reservedName kind name reserved, located.location⟩

end Validation

open Validation

def Model.validate (model : Model) : Report where
  findings :=
    repeatedContexts model
      ++ model.elements.flatMap structureFindings
      ++ sharedNames model
      ++ model.contextMap.toList.flatMap (mapFindings model)
      ++ model.elements.flatMap typeFindings
      ++ model.elements.filterMap nameFinding?

end DomainAtlas
