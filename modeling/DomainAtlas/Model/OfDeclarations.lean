import DomainAtlas.Model.Basic
import DomainAtlas.Syntax
/-!
# Models of documents

A block is folded item by item: a property that takes one value keeps the last one, a property that
takes a list collects all of them, and the patterns of a relationship are kept once each.
-/
set_option autoImplicit false

namespace DomainAtlas

namespace AttributeDecl

def toAttribute (decl : AttributeDecl) : Attribute :=
  { name := decl.name, type := decl.type.text, key := decl.key, nullable := decl.nullable }

end AttributeDecl

namespace OperationDecl

def toOperation (decl : OperationDecl) : Operation :=
  { name := decl.name
    returnType := decl.returnType.map TypeRef.text
    parameters := decl.parameters.map fun parameter => ⟨parameter.name, parameter.type.text⟩ }

end OperationDecl

namespace Entity

def add (entity : Entity) : EntityItem → Entity
  | .root => { entity with isRoot := true }
  | .attribute decl => { entity with attributes := entity.attributes ++ [decl.toAttribute] }
  | .operation decl => { entity with operations := entity.operations ++ [decl.toOperation] }

end Entity

def EntityDecl.toEntity (decl : EntityDecl) : Entity :=
  decl.items.foldl Entity.add { name := decl.name }

def ObjectDecl.toObject (decl : ObjectDecl) : DomainObject :=
  { name := decl.name, attributes := decl.attributes.map AttributeDecl.toAttribute }

def ServiceDecl.toService (decl : ServiceDecl) : Service :=
  { name := decl.name, operations := decl.operations.map OperationDecl.toOperation }

namespace Aggregate

def add (aggregate : Aggregate) : AggregateItem → Aggregate
  | .responsibilities texts =>
    { aggregate with responsibilities := aggregate.responsibilities ++ texts }
  | .knowledgeLevel level => { aggregate with knowledgeLevel := some level }
  | .entity decl => { aggregate with entities := aggregate.entities ++ [decl.toEntity] }
  | .valueObject decl => { aggregate with valueObjects := aggregate.valueObjects ++ [decl.toObject] }
  | .domainEvent decl => { aggregate with domainEvents := aggregate.domainEvents ++ [decl.toObject] }
  | .command decl => { aggregate with commands := aggregate.commands ++ [decl.toObject] }
  | .service decl => { aggregate with services := aggregate.services ++ [decl.toService] }

end Aggregate

def AggregateDecl.toAggregate (decl : AggregateDecl) : Aggregate :=
  decl.items.foldl Aggregate.add { name := decl.name }

def ModuleDecl.toModule (decl : ModuleDecl) : Module :=
  { name := decl.name, aggregates := decl.aggregates.map AggregateDecl.toAggregate }

namespace BoundedContext

def add (context : BoundedContext) : ContextItem → BoundedContext
  | .visionStatement text => { context with visionStatement := some text }
  | .responsibilities texts =>
    { context with responsibilities := context.responsibilities ++ texts }
  | .implementationTechnology text => { context with implementationTechnology := some text }
  | .knowledgeLevel level => { context with knowledgeLevel := some level }
  | .type type => { context with contextType := some type }
  | .aggregate decl => { context with aggregates := context.aggregates ++ [decl.toAggregate] }
  | .module decl => { context with modules := context.modules ++ [decl.toModule] }

end BoundedContext

def ContextDecl.toContext (decl : ContextDecl) : BoundedContext :=
  decl.items.foldl BoundedContext.add { name := decl.name }

namespace DirectedRelationship

def add (relationship : DirectedRelationship) : RelationshipItem → DirectedRelationship
  | .exposedAggregates names =>
    { relationship with exposedAggregates := relationship.exposedAggregates ++ names }
  | .implementationTechnology text => { relationship with implementationTechnology := some text }

end DirectedRelationship

def RelationshipDecl.toRelationship : RelationshipDecl → Relationship
  | symmetric kind left right => .symmetric kind left right
  | directed upstream downstream upstreamPatterns downstreamPatterns body =>
    .directed (body.foldl DirectedRelationship.add
      (DirectedRelationship.addPatterns { upstream, downstream } upstreamPatterns downstreamPatterns))

namespace ContextMap

def add (map : ContextMap) : MapItem → ContextMap
  | .type word => { map with mapType := some word }
  | .state state => { map with state := state }
  | .contains names => { map with contains := map.contains ++ names }
  | .relationship decl => { map with relationships := map.relationships ++ [decl.toRelationship] }

end ContextMap

def MapDecl.toMap (decl : MapDecl) : ContextMap :=
  decl.items.foldl ContextMap.add { name := decl.name }

namespace Model

def add (model : Model) : Declaration → Model
  | .contextMap decl => { model with contextMap := some decl.toMap }
  | .boundedContext decl =>
    { model with boundedContexts := model.boundedContexts ++ [decl.toContext] }

def ofDeclarations (declarations : List Declaration) : Model :=
  declarations.foldl add {}

end Model

end DomainAtlas
