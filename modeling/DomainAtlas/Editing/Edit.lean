import DomainAtlas.Editing.Member
/-!
# Edits

An edit adds elements to a model. It checks everything first: either all that it brings is added, and
the paths of the new elements are given, or the model stays as it is.
-/
set_option autoImplicit false

namespace DomainAtlas

/-- What a batch does at an element that is refused. -/
inductive BatchMode
  /-- It ends there. -/
  | failFast
  /-- It checks the others too, so that all refusals are given. -/
  | collectAll
  deriving DecidableEq, Repr

namespace Model

def requireContext (model : Model) (name : String) : Except Rejection PlacedContext :=
  match model.findContext? name with
  | some placed => .ok placed
  | none => .error (.unknownContext name)

def requireAggregate (model : Model) (context aggregate : String) :
    Except Rejection (PlacedContext × PlacedAggregate) := do
  let placed ← model.requireContext context
  match placed.context.findAggregate? aggregate with
  | some found => return (placed, found)
  | none => throw (.unknownAggregate context aggregate)

def addBoundedContext (model : Model) (raw : String) : Except Rejection (Model × Path) := do
  let name ← checkedName raw
  if model.hasContext name then throw (.duplicate .boundedContext name .model)
  return ({ model with boundedContexts := model.boundedContexts ++ [{ name }] },
    [(.boundedContexts, model.boundedContexts.length)])

def addModule (model : Model) (context raw : String) : Except Rejection (Model × Path) := do
  let name ← checkedName raw
  let placed ← model.requireContext context
  if placed.context.modules.any (fun module => module.name == name) then
    throw (.duplicate .module name (.boundedContext context))
  return (model.modifyContext placed.index fun target =>
      { target with modules := target.modules ++ [{ name }] },
    placed.path ++ [(.modules, placed.context.modules.length)])

/-- Adds an empty aggregate to a context, or to a module of it. -/
def addAggregate (model : Model) (context : String) (module? : Option String) (raw : String) :
    Except Rejection (Model × Path) := do
  let name ← checkedName raw
  refuseReserved name
  let placed ← model.requireContext context
  if placed.context.hasAggregate name then
    throw (.duplicate .aggregate name (.boundedContext context))
  match module? with
  | none =>
    return (model.modifyContext placed.index fun target =>
        { target with aggregates := target.aggregates ++ [{ name }] },
      placed.path ++ [(.aggregates, placed.context.aggregates.length)])
  | some module =>
    match placed.context.modules.zipIdx.find? fun entry => entry.1.name == module with
    | none => throw (.unknownModule context module)
    | some (found, index) =>
      return (model.modifyContext placed.index fun target =>
          { target with
            modules := target.modules.modify index fun changed =>
              { changed with aggregates := changed.aggregates ++ [{ name }] } },
        placed.path ++ [(.modules, index), (.aggregates, found.aggregates.length)])

/-- Brings a member into the form in which it may be added, or says why it may not. `pending` holds the
names of members that are about to be added to the same list. -/
def prepare (model : Model) (context aggregate : String) (pending : List String) (member : Member) :
    Except Rejection Member := do
  let name ← checkedName member.name
  refuseReserved name
  let normal ← member.normalize
  let (_, target) ← model.requireAggregate context aggregate
  if name ∈ member.kind.names target.aggregate ∨ name ∈ pending then
    throw (.duplicate member.kind.keyword name (.aggregate aggregate))
  if member.kind.sharesNames then
    match model.firstOccurrence? name with
    | some existing => throw (.nameInUse name existing context)
    | none => return normal.rename name
  else return normal.rename name

def insert (model : Model) (context aggregate : String) (member : Member) :
    Except Rejection (Model × Path) := do
  let (placed, target) ← model.requireAggregate context aggregate
  return (model.modifyContext placed.index fun found =>
      found.modifyAggregate target.place fun changed => changed.append member,
    placed.path ++ target.place.path
      ++ [(member.kind.field, (member.kind.names target.aggregate).length)])

def addMember (model : Model) (context aggregate : String) (member : Member) :
    Except Rejection (Model × Path) := do
  let prepared ← model.prepare context aggregate [] member
  model.insert context aggregate prepared

/-- Prepares members in order, each with the names of those before it pending: the members to add and
the refusals, with indices from `index` on. -/
def prepareAll (model : Model) (context aggregate : String) (mode : BatchMode) (index : Nat)
    (pending : List String) : List Member → List Member × List (Nat × Rejection)
  | [] => ([], [])
  | member :: members =>
    match model.prepare context aggregate pending member with
    | .ok prepared =>
      let (accepted, failures) :=
        model.prepareAll context aggregate mode (index + 1) (pending ++ [prepared.name]) members
      (prepared :: accepted, failures)
    | .error rejection =>
      match mode with
      | .failFast => ([], [(index, rejection)])
      | .collectAll =>
        let (accepted, failures) :=
          model.prepareAll context aggregate mode (index + 1) pending members
        (accepted, (index, rejection) :: failures)

def insertAll (model : Model) (context aggregate : String) :
    List Member → Except Rejection (Model × List Path)
  | [] => .ok (model, [])
  | member :: members => do
    let (changed, path) ← model.insert context aggregate member
    let (final, paths) ← changed.insertAll context aggregate members
    return (final, path :: paths)

/-- Adds several members of one kind to one aggregate, or none of them. -/
def addMembers (model : Model) (context aggregate : String) (members : List Member)
    (mode : BatchMode) : Except EditError (Model × List Path) :=
  match model.prepareAll context aggregate mode 0 [] members with
  | (accepted, []) => (model.insertAll context aggregate accepted).mapError .rejected
  | (_, failures) => .error (.batch members.length failures)

/-- The exposed aggregates have to be declared in the upstream context. -/
def requireExposed (model : Model) : Relationship → Except Rejection Unit
  | .symmetric .. => .ok ()
  | .directed relationship => do
    let upstream ← model.requireContext relationship.upstream
    match relationship.exposedAggregates.find? fun name => !upstream.context.hasAggregate name with
    | some missing => throw (.unknownAggregate relationship.upstream missing)
    | none => return ()

/-- Adds a relationship to the context map, which is created where there is none. -/
def addRelationship (model : Model) (relationship : Relationship) :
    Except Rejection (Model × Path) := do
  let _ ← model.requireContext relationship.participants.1
  let _ ← model.requireContext relationship.participants.2
  model.requireExposed relationship
  let map := model.contextMap.getD {}
  return ({ model with
      contextMap := some { map with relationships := map.relationships ++ [relationship] } },
    [(.relationships, map.relationships.length)])

end Model

inductive Edit
  | boundedContext (name : String)
  | module (context name : String)
  | aggregate (context : String) (module? : Option String) (name : String)
  | member (context aggregate : String) (member : Member)
  | entities (context aggregate : String) (entities : List Entity) (mode : BatchMode)
  | valueObjects (context aggregate : String) (objects : List DomainObject) (mode : BatchMode)
  | relationship (relationship : Relationship)

def singleOutcome (outcome : Except Rejection (Model × Path)) : Except EditError (Model × List Path) :=
  match outcome with
  | .ok (model, path) => .ok (model, [path])
  | .error rejection => .error (.rejected rejection)

def Model.edit (model : Model) : Edit → Except EditError (Model × List Path)
  | .boundedContext name => singleOutcome (model.addBoundedContext name)
  | .module context name => singleOutcome (model.addModule context name)
  | .aggregate context module? name => singleOutcome (model.addAggregate context module? name)
  | .member context aggregate member => singleOutcome (model.addMember context aggregate member)
  | .entities context aggregate entities mode =>
    model.addMembers context aggregate (entities.map .entity) mode
  | .valueObjects context aggregate objects mode =>
    model.addMembers context aggregate (objects.map .valueObject) mode
  | .relationship relationship => singleOutcome (model.addRelationship relationship)

/-- The model after an edit: the old one where the edit is refused. -/
def Model.after (model : Model) (edit : Edit) : Model :=
  match model.edit edit with
  | .ok (changed, _) => changed
  | .error _ => model

/-- The model after a series of edits, those refused left out. -/
def Model.afterAll (model : Model) (edits : List Edit) : Model :=
  edits.foldl Model.after model

end DomainAtlas
