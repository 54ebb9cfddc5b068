import DomainAtlas.Model.Place
/-!
# Elements with identities

Whoever has been handed an element can refer to it later by its identity, whatever is added around it. A
tracked model is a model each of whose elements has one: the context map and its relationships, the bounded
contexts, their modules and aggregates, and the members of the aggregates. What a tracked model holds does
not depend on the identities; two models with the same contents are the same to validation and printing.
-/
set_option autoImplicit false

namespace DomainAtlas

abbrev ElementId := Nat

structure Identified (α : Type) where
  id : ElementId
  value : α
  deriving DecidableEq, Repr

structure TrackedAggregate where
  name : String
  responsibilities : List String := []
  knowledgeLevel : Option KnowledgeLevel := none
  entities : List (Identified Entity) := []
  valueObjects : List (Identified DomainObject) := []
  domainEvents : List (Identified DomainObject) := []
  commands : List (Identified DomainObject) := []
  services : List (Identified Service) := []
  deriving DecidableEq, Repr

structure TrackedModule where
  name : String
  aggregates : List (Identified TrackedAggregate) := []
  deriving DecidableEq, Repr

structure TrackedContext where
  name : String
  visionStatement : Option String := none
  responsibilities : List String := []
  implementationTechnology : Option String := none
  knowledgeLevel : Option KnowledgeLevel := none
  contextType : Option ContextType := none
  aggregates : List (Identified TrackedAggregate) := []
  modules : List (Identified TrackedModule) := []
  deriving DecidableEq, Repr

structure TrackedMap where
  name : Option String := none
  mapType : Option String := none
  state : MapState := .asIs
  contains : List String := []
  relationships : List (Identified Relationship) := []
  deriving DecidableEq, Repr

structure TrackedModel where
  name : String := ""
  contextMap : Option (Identified TrackedMap) := none
  boundedContexts : List (Identified TrackedContext) := []
  deriving DecidableEq, Repr

/-! ## What is held -/

def TrackedAggregate.contents (aggregate : TrackedAggregate) : Aggregate where
  name := aggregate.name
  responsibilities := aggregate.responsibilities
  knowledgeLevel := aggregate.knowledgeLevel
  entities := aggregate.entities.map (·.value)
  valueObjects := aggregate.valueObjects.map (·.value)
  domainEvents := aggregate.domainEvents.map (·.value)
  commands := aggregate.commands.map (·.value)
  services := aggregate.services.map (·.value)

def TrackedModule.contents (module : TrackedModule) : Module where
  name := module.name
  aggregates := module.aggregates.map (·.value.contents)

def TrackedContext.contents (context : TrackedContext) : BoundedContext where
  name := context.name
  visionStatement := context.visionStatement
  responsibilities := context.responsibilities
  implementationTechnology := context.implementationTechnology
  knowledgeLevel := context.knowledgeLevel
  contextType := context.contextType
  aggregates := context.aggregates.map (·.value.contents)
  modules := context.modules.map (·.value.contents)

def TrackedMap.contents (map : TrackedMap) : ContextMap where
  name := map.name
  mapType := map.mapType
  state := map.state
  contains := map.contains
  relationships := map.relationships.map (·.value)

def TrackedModel.contents (model : TrackedModel) : Model where
  name := model.name
  contextMap := model.contextMap.map (·.value.contents)
  boundedContexts := model.boundedContexts.map (·.value.contents)

/-! ## Where an identity is found -/

/-- The identities in a list of elements, each with the path of its element; `inner` gives those inside an
element. -/
def placesIn {α : Type} (field : Field) (inner : α → List (ElementId × Path)) (elements : List (Identified α)) :
    List (ElementId × Path) :=
  elements.zipIdx.flatMap fun entry =>
    (inner entry.1.value).map (fun place => (place.1, (field, entry.2) :: place.2))
      ++ [(entry.1.id, [(field, entry.2)])]

def leafPlaces {α : Type} (field : Field) (elements : List (Identified α)) : List (ElementId × Path) :=
  placesIn field (fun _ => []) elements

def TrackedAggregate.places (aggregate : TrackedAggregate) : List (ElementId × Path) :=
  leafPlaces .entities aggregate.entities
    ++ leafPlaces .valueObjects aggregate.valueObjects
    ++ leafPlaces .domainEvents aggregate.domainEvents
    ++ leafPlaces .commands aggregate.commands
    ++ leafPlaces .services aggregate.services

def TrackedModule.places (module : TrackedModule) : List (ElementId × Path) :=
  placesIn .aggregates TrackedAggregate.places module.aggregates

def TrackedContext.places (context : TrackedContext) : List (ElementId × Path) :=
  placesIn .aggregates TrackedAggregate.places context.aggregates
    ++ placesIn .modules TrackedModule.places context.modules

def TrackedMap.places (map : TrackedMap) : List (ElementId × Path) :=
  leafPlaces .relationships map.relationships

namespace TrackedModel

/-- The identities of all elements but the context map, which no path leads to. -/
def places (model : TrackedModel) : List (ElementId × Path) :=
  (model.contextMap.elim [] fun map => map.value.places)
    ++ placesIn .boundedContexts TrackedContext.places model.boundedContexts

def ids (model : TrackedModel) : List ElementId :=
  model.places.map (·.1) ++ (model.contextMap.map (·.id)).toList

/-- The path of the element that has the identity. -/
def pathOf? (model : TrackedModel) (id : ElementId) : Option Path :=
  (model.places.find? fun place => place.1 == id).map (·.2)

end TrackedModel

/-! ## Giving identities -/

/-- Gives out numbers, from the one that is held on. -/
abbrev Numbering := StateM ElementId

def identify {α : Type} (value : α) : Numbering (Identified α) :=
  modifyGet fun next => (⟨next, value⟩, next + 1)

/-- Numbers what is inside each element, and then the element. -/
def identifyEach {α β : Type} (inner : α → Numbering β) : List α → Numbering (List (Identified β))
  | [] => return []
  | value :: values => do
    let element ← identify (← inner value)
    return element :: (← identifyEach inner values)

def identifyLeaves {α : Type} (values : List α) : Numbering (List (Identified α)) :=
  identifyEach pure values

def Aggregate.track (aggregate : Aggregate) : Numbering TrackedAggregate := do
  let entities ← identifyLeaves aggregate.entities
  let valueObjects ← identifyLeaves aggregate.valueObjects
  let domainEvents ← identifyLeaves aggregate.domainEvents
  let commands ← identifyLeaves aggregate.commands
  let services ← identifyLeaves aggregate.services
  return {
    name := aggregate.name
    responsibilities := aggregate.responsibilities
    knowledgeLevel := aggregate.knowledgeLevel
    entities, valueObjects, domainEvents, commands, services }

def Module.track (module : Module) : Numbering TrackedModule := do
  let aggregates ← identifyEach Aggregate.track module.aggregates
  return { name := module.name, aggregates }

def BoundedContext.track (context : BoundedContext) : Numbering TrackedContext := do
  let aggregates ← identifyEach Aggregate.track context.aggregates
  let modules ← identifyEach Module.track context.modules
  return {
    name := context.name
    visionStatement := context.visionStatement
    responsibilities := context.responsibilities
    implementationTechnology := context.implementationTechnology
    knowledgeLevel := context.knowledgeLevel
    contextType := context.contextType
    aggregates, modules }

def ContextMap.track (map : ContextMap) : Numbering TrackedMap := do
  let relationships ← identifyLeaves map.relationships
  return {
    name := map.name
    mapType := map.mapType
    state := map.state
    contains := map.contains
    relationships }

/-- The context map gets its number after all other elements. -/
def Model.track (model : Model) : Numbering TrackedModel := do
  let map? ← model.contextMap.mapM ContextMap.track
  let boundedContexts ← identifyEach BoundedContext.track model.boundedContexts
  let contextMap ← map?.mapM identify
  return { name := model.name, contextMap, boundedContexts }

end DomainAtlas
