import DomainAtlas.Model.Place
import DomainAtlas.Validation.Location
/-!
# Uses of names

Entities, value objects, domain events and commands share one space of names across the model. An
occurrence is one use of such a name.
-/
set_option autoImplicit false

namespace DomainAtlas

structure Occurrence where
  kind : ObjectKind
  context : String
  aggregate : Location
  deriving DecidableEq, Repr

def Occurrence.text (occurrence : Occurrence) : String :=
  occurrence.kind.keyword.text ++ " in " ++ occurrence.aggregate.text

def PlacedAggregate.occurrences (context : String) (placed : PlacedAggregate) :
    List (String × Occurrence) :=
  placed.aggregate.domainObjects.map fun object =>
    (object.2, ⟨object.1, context, Location.ofAggregate context placed.module placed.aggregate.name⟩)

def BoundedContext.occurrences (context : BoundedContext) : List (String × Occurrence) :=
  context.placedAggregates.flatMap (PlacedAggregate.occurrences context.name)

namespace Model

def occurrences (model : Model) : List (String × Occurrence) :=
  model.boundedContexts.flatMap BoundedContext.occurrences

def firstOccurrence? (model : Model) (name : String) : Option Occurrence :=
  (model.occurrences.find? fun entry => entry.1 == name).map (·.2)

end Model

end DomainAtlas
