import DomainAtlas.Model.Basic
import DomainAtlas.Text.Word
import DomainAtlas.TypeRef

/-! # Well-formed models

The models that documents can describe: names are words, types are in canonical form, patterns do not
repeat. Free texts are not restricted, and neither are references: they need not find anything.
-/
set_option autoImplicit false

namespace DomainAtlas

open Text (isWord)

/-- The canonical form of a type over a word. -/
def IsCanonicalType (text : String) : Prop :=
  ∃ type : TypeRef, isWord type.baseName = true ∧ text = type.text

structure Attribute.WellFormed (member : Attribute) : Prop where
  name : isWord member.name = true
  type : IsCanonicalType member.type

structure Parameter.WellFormed (parameter : Parameter) : Prop where
  name : isWord parameter.name = true
  type : IsCanonicalType parameter.type

structure Operation.WellFormed (member : Operation) : Prop where
  name : isWord member.name = true
  returnType : ∀ type ∈ member.returnType, IsCanonicalType type
  parameters : ∀ parameter ∈ member.parameters, parameter.WellFormed

structure Entity.WellFormed (entity : Entity) : Prop where
  name : isWord entity.name = true
  attributes : ∀ member ∈ entity.attributes, member.WellFormed
  operations : ∀ member ∈ entity.operations, member.WellFormed

structure DomainObject.WellFormed (object : DomainObject) : Prop where
  name : isWord object.name = true
  attributes : ∀ member ∈ object.attributes, member.WellFormed

structure Service.WellFormed (service : Service) : Prop where
  name : isWord service.name = true
  operations : ∀ member ∈ service.operations, member.WellFormed

structure Aggregate.WellFormed (aggregate : Aggregate) : Prop where
  name : isWord aggregate.name = true
  entities : ∀ entity ∈ aggregate.entities, entity.WellFormed
  valueObjects : ∀ object ∈ aggregate.valueObjects, object.WellFormed
  domainEvents : ∀ object ∈ aggregate.domainEvents, object.WellFormed
  commands : ∀ object ∈ aggregate.commands, object.WellFormed
  services : ∀ service ∈ aggregate.services, service.WellFormed

structure Module.WellFormed (module : Module) : Prop where
  name : isWord module.name = true
  aggregates : ∀ aggregate ∈ module.aggregates, aggregate.WellFormed

structure BoundedContext.WellFormed (context : BoundedContext) : Prop where
  name : isWord context.name = true
  aggregates : ∀ aggregate ∈ context.aggregates, aggregate.WellFormed
  modules : ∀ module ∈ context.modules, module.WellFormed

structure DirectedRelationship.WellFormed (relationship : DirectedRelationship) : Prop where
  upstream : isWord relationship.upstream = true
  downstream : isWord relationship.downstream = true
  upstreamPatterns : relationship.upstreamPatterns.Nodup
  downstreamPatterns : relationship.downstreamPatterns.Nodup
  exposedAggregates : ∀ name ∈ relationship.exposedAggregates, isWord name = true

def Relationship.WellFormed : Relationship → Prop
  | symmetric _ first second => isWord first = true ∧ isWord second = true
  | directed relationship => relationship.WellFormed

structure ContextMap.WellFormed (map : ContextMap) : Prop where
  name : ∀ name ∈ map.name, isWord name = true
  mapType : ∀ word ∈ map.mapType, isWord word = true
  contains : ∀ name ∈ map.contains, isWord name = true
  relationships : ∀ relationship ∈ map.relationships, relationship.WellFormed

structure Model.WellFormed (model : Model) : Prop where
  name : model.name = ""
  contextMap : ∀ map ∈ model.contextMap, map.WellFormed
  boundedContexts : ∀ context ∈ model.boundedContexts, context.WellFormed

end DomainAtlas
