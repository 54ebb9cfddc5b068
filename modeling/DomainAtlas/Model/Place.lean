import DomainAtlas.Model.Basic
/-!
# Places in a model

Lookup by name finds the first element of that name; the aggregates of a context come before those of
its modules. A path says where an element stands.
-/
set_option autoImplicit false

namespace DomainAtlas

inductive Field
  | boundedContexts
  | relationships
  | modules
  | aggregates
  | entities
  | valueObjects
  | domainEvents
  | commands
  | services
  deriving DecidableEq, Repr

def Field.text : Field → String
  | boundedContexts => "bounded_contexts"
  | relationships => "context_map.relationships"
  | modules => "modules"
  | aggregates => "aggregates"
  | entities => "entities"
  | valueObjects => "value_objects"
  | domainEvents => "domain_events"
  | commands => "commands"
  | services => "services"

/-- Lists and indices, from the model inwards. -/
abbrev Path := List (Field × Nat)

def Path.text (path : Path) : String :=
  ".".intercalate (path.map fun step => step.1.text ++ "[" ++ toString step.2 ++ "]")

inductive AggregatePlace
  | direct (index : Nat)
  | inModule (module index : Nat)
  deriving DecidableEq, Repr

def AggregatePlace.path : AggregatePlace → Path
  | direct index => [(.aggregates, index)]
  | inModule module index => [(.modules, module), (.aggregates, index)]

structure PlacedAggregate where
  place : AggregatePlace
  module : Option String
  aggregate : Aggregate
  deriving DecidableEq, Repr

def PlacedAggregate.rootPath? (placed : PlacedAggregate) : Option Path :=
  (placed.aggregate.entities.findIdx? (·.isRoot)).map fun index =>
    placed.place.path ++ [(.entities, index)]

namespace Module

def placedAggregates (module : Module) (index : Nat) : List PlacedAggregate :=
  module.aggregates.zipIdx.map fun entry =>
    ⟨.inModule index entry.2, some module.name, entry.1⟩

end Module

namespace BoundedContext

def placedAggregates (context : BoundedContext) : List PlacedAggregate :=
  context.aggregates.zipIdx.map (fun entry => ⟨.direct entry.2, none, entry.1⟩)
    ++ context.modules.zipIdx.flatMap fun entry => entry.1.placedAggregates entry.2

def allAggregates (context : BoundedContext) : List Aggregate :=
  context.placedAggregates.map (·.aggregate)

def findAggregate? (context : BoundedContext) (name : String) : Option PlacedAggregate :=
  context.placedAggregates.find? fun placed => placed.aggregate.name == name

def hasAggregate (context : BoundedContext) (name : String) : Bool :=
  (context.findAggregate? name).isSome

def modifyAggregate (context : BoundedContext) (place : AggregatePlace)
    (change : Aggregate → Aggregate) : BoundedContext :=
  match place with
  | .direct index => { context with aggregates := context.aggregates.modify index change }
  | .inModule module index =>
    { context with
      modules := context.modules.modify module fun found =>
        { found with aggregates := found.aggregates.modify index change } }

end BoundedContext

structure PlacedContext where
  index : Nat
  context : BoundedContext
  deriving DecidableEq, Repr

def PlacedContext.path (placed : PlacedContext) : Path :=
  [(.boundedContexts, placed.index)]

namespace Model

def placedContexts (model : Model) : List PlacedContext :=
  model.boundedContexts.zipIdx.map fun entry => ⟨entry.2, entry.1⟩

def findContext? (model : Model) (name : String) : Option PlacedContext :=
  model.placedContexts.find? fun placed => placed.context.name == name

def hasContext (model : Model) (name : String) : Bool :=
  (model.findContext? name).isSome

def modifyContext (model : Model) (index : Nat) (change : BoundedContext → BoundedContext) : Model :=
  { model with boundedContexts := model.boundedContexts.modify index change }

end Model

end DomainAtlas
