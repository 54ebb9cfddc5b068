import DomainAtlas.Validation.Location
/-!
# The elements of a model

All elements in document order, each before what it contains. The context map comes first.
-/
set_option autoImplicit false

namespace DomainAtlas

inductive Element
  | contextMap (map : ContextMap)
  | boundedContext (context : BoundedContext)
  | module (module : Module)
  | aggregate (aggregate : Aggregate)
  | entity (entity : Entity)
  | valueObject (object : DomainObject)
  | domainEvent (object : DomainObject)
  | command (object : DomainObject)
  | service (service : Service)
  | attribute (member : Attribute)
  | operation (member : Operation)
  deriving DecidableEq, Repr

/-- An element with its location; attributes and operations have that of the element they belong to. -/
structure LocatedElement where
  element : Element
  location : Location
  deriving DecidableEq, Repr

def attributeElements (location : Location) (members : List Attribute) : List LocatedElement :=
  members.map fun member => ⟨.attribute member, location⟩

def operationElements (location : Location) (members : List Operation) : List LocatedElement :=
  members.map fun member => ⟨.operation member, location⟩

def Entity.elements (parent : Location) (entity : Entity) : List LocatedElement :=
  let here := parent.child "Entity" entity.name
  ⟨.entity entity, here⟩
    :: (attributeElements here entity.attributes ++ operationElements here entity.operations)

namespace DomainObject

def valueObjectElements (parent : Location) (object : DomainObject) : List LocatedElement :=
  let here := parent.child "ValueObject" object.name
  ⟨.valueObject object, here⟩ :: attributeElements here object.attributes

def domainEventElements (parent : Location) (object : DomainObject) : List LocatedElement :=
  let here := parent.child "DomainEvent" object.name
  ⟨.domainEvent object, here⟩ :: attributeElements here object.attributes

def commandElements (parent : Location) (object : DomainObject) : List LocatedElement :=
  let here := parent.child "Command" object.name
  ⟨.command object, here⟩ :: attributeElements here object.attributes

end DomainObject

def Service.elements (parent : Location) (service : Service) : List LocatedElement :=
  let here := parent.child "Service" service.name
  ⟨.service service, here⟩ :: operationElements here service.operations

def Aggregate.elements (parent : Location) (aggregate : Aggregate) : List LocatedElement :=
  let here := parent.child "Aggregate" aggregate.name
  ⟨.aggregate aggregate, here⟩
    :: (aggregate.entities.flatMap (Entity.elements here)
      ++ aggregate.valueObjects.flatMap (DomainObject.valueObjectElements here)
      ++ aggregate.domainEvents.flatMap (DomainObject.domainEventElements here)
      ++ aggregate.commands.flatMap (DomainObject.commandElements here)
      ++ aggregate.services.flatMap (Service.elements here))

def Module.elements (parent : Location) (module : Module) : List LocatedElement :=
  let here := parent.child "Module" module.name
  ⟨.module module, here⟩ :: module.aggregates.flatMap (Aggregate.elements here)

def BoundedContext.elements (context : BoundedContext) : List LocatedElement :=
  let here := Location.ofContext context.name
  ⟨.boundedContext context, here⟩
    :: (context.aggregates.flatMap (Aggregate.elements here)
      ++ context.modules.flatMap (Module.elements here))

def ContextMap.element (map : ContextMap) : LocatedElement :=
  ⟨.contextMap map, Location.ofMap map⟩

def Model.elements (model : Model) : List LocatedElement :=
  model.contextMap.toList.map ContextMap.element ++ model.boundedContexts.flatMap BoundedContext.elements

end DomainAtlas
