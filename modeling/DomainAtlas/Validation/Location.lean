import DomainAtlas.Model.Basic
/-!
# Locations

Where in a model a finding belongs, named by the kinds and the names of the elements around it. Two
elements of one name have one location; where they stand is told by paths, not by locations.
-/
set_option autoImplicit false

namespace DomainAtlas

/-- Kind and name of each element from the outermost inwards. -/
structure Location where
  segments : List (String × String) := []
  deriving DecidableEq, Repr

namespace Location

def root : Location := {}

def child (location : Location) (kind name : String) : Location :=
  { segments := location.segments ++ [(kind, name)] }

def segmentText (segment : String × String) : String :=
  if segment.2 = "" then segment.1 else segment.1 ++ " '" ++ segment.2 ++ "'"

def text (location : Location) : String :=
  match location.segments with
  | [] => "model"
  | segments => " > ".intercalate (segments.map segmentText)

def ofContext (name : String) : Location :=
  root.child "BoundedContext" name

def ofMap (map : ContextMap) : Location :=
  root.child "ContextMap" (map.name.getD "")

/-- The location of an aggregate of the context `context`, in one of its modules or in none. -/
def ofAggregate (context : String) (module : Option String) (aggregate : String) : Location :=
  let parent := match module with
    | some name => (ofContext context).child "Module" name
    | none => ofContext context
  parent.child "Aggregate" aggregate

end Location

end DomainAtlas
