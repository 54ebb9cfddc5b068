import DomainAtlas.Model.Kinds
/-!
# Models

What a document describes: bounded contexts with their modules, aggregates and members, and a map of the
relationships between the contexts. References between elements are names. A model may hold anything;
what it should hold is the matter of validation.
-/
set_option autoImplicit false

namespace DomainAtlas

structure Attribute where
  name : String
  type : String
  key : Bool := false
  nullable : Bool := false
  deriving DecidableEq, Repr

structure Parameter where
  name : String
  type : String
  deriving DecidableEq, Repr

structure Operation where
  name : String
  returnType : Option String := none
  parameters : List Parameter := []
  deriving DecidableEq, Repr

structure Entity where
  name : String
  isRoot : Bool := false
  attributes : List Attribute := []
  operations : List Operation := []
  deriving DecidableEq, Repr

/-- A value object, a domain event or a command, as the list says that it stands in. -/
structure DomainObject where
  name : String
  attributes : List Attribute := []
  deriving DecidableEq, Repr

structure Service where
  name : String
  operations : List Operation := []
  deriving DecidableEq, Repr

structure Aggregate where
  name : String
  responsibilities : List String := []
  knowledgeLevel : Option KnowledgeLevel := none
  entities : List Entity := []
  valueObjects : List DomainObject := []
  domainEvents : List DomainObject := []
  commands : List DomainObject := []
  services : List Service := []
  deriving DecidableEq, Repr

structure Module where
  name : String
  aggregates : List Aggregate := []
  deriving DecidableEq, Repr

structure BoundedContext where
  name : String
  visionStatement : Option String := none
  responsibilities : List String := []
  implementationTechnology : Option String := none
  knowledgeLevel : Option KnowledgeLevel := none
  contextType : Option ContextType := none
  aggregates : List Aggregate := []
  modules : List Module := []
  deriving DecidableEq, Repr

/-- A relationship in which the downstream context depends on the upstream one. -/
structure DirectedRelationship where
  upstream : String
  downstream : String
  upstreamPatterns : List UpstreamPattern := []
  downstreamPatterns : List DownstreamPattern := []
  exposedAggregates : List String := []
  implementationTechnology : Option String := none
  deriving DecidableEq, Repr

inductive Relationship
  | symmetric (kind : SymmetricKind) (first second : String)
  | directed (relationship : DirectedRelationship)
  deriving DecidableEq, Repr

structure ContextMap where
  name : Option String := none
  /-- Any word; it is kept and never interpreted. -/
  mapType : Option String := none
  state : MapState := .asIs
  contains : List String := []
  relationships : List Relationship := []
  deriving DecidableEq, Repr

structure Model where
  name : String := ""
  contextMap : Option ContextMap := none
  boundedContexts : List BoundedContext := []
  deriving DecidableEq, Repr

/-- The kinds of members whose names are shared by the whole model. -/
inductive ObjectKind
  | entity
  | valueObject
  | domainEvent
  | command
  deriving DecidableEq, Repr

def ObjectKind.keyword : ObjectKind → Keyword
  | entity => .entity
  | valueObject => .valueObject
  | domainEvent => .domainEvent
  | command => .command

namespace Aggregate

def root? (aggregate : Aggregate) : Option Entity :=
  aggregate.entities.find? (·.isRoot)

/-- Kind and name of every member that shares the names of the model. -/
def domainObjects (aggregate : Aggregate) : List (ObjectKind × String) :=
  aggregate.entities.map (fun member => (.entity, member.name))
    ++ aggregate.valueObjects.map (fun member => (.valueObject, member.name))
    ++ aggregate.domainEvents.map (fun member => (.domainEvent, member.name))
    ++ aggregate.commands.map (fun member => (.command, member.name))

def isEmpty (aggregate : Aggregate) : Bool :=
  aggregate.entities.isEmpty && aggregate.valueObjects.isEmpty && aggregate.domainEvents.isEmpty
    && aggregate.commands.isEmpty && aggregate.services.isEmpty

end Aggregate

namespace DirectedRelationship

/-- Adds a pattern that is not there yet. -/
def addUpstreamPattern (relationship : DirectedRelationship) (pattern : UpstreamPattern) :
    DirectedRelationship :=
  if pattern ∈ relationship.upstreamPatterns then relationship
  else { relationship with upstreamPatterns := relationship.upstreamPatterns ++ [pattern] }

/-- Adds a pattern that is not there yet. -/
def addDownstreamPattern (relationship : DirectedRelationship) (pattern : DownstreamPattern) :
    DirectedRelationship :=
  if pattern ∈ relationship.downstreamPatterns then relationship
  else { relationship with downstreamPatterns := relationship.downstreamPatterns ++ [pattern] }

def addPatterns (relationship : DirectedRelationship) (upstream : List UpstreamPattern)
    (downstream : List DownstreamPattern) : DirectedRelationship :=
  downstream.foldl addDownstreamPattern (upstream.foldl addUpstreamPattern relationship)

end DirectedRelationship

namespace Relationship

/-- The two contexts, as the canonical form names them. -/
def participants : Relationship → String × String
  | symmetric _ first second => (first, second)
  | directed relationship => (relationship.upstream, relationship.downstream)

def isSelf (relationship : Relationship) : Bool :=
  relationship.participants.1 == relationship.participants.2

end Relationship

end DomainAtlas
