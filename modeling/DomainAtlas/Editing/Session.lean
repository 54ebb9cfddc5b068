import DomainAtlas.Editing.Edit
import DomainAtlas.Model.Identity
/-!
# Sessions

A session is changed in place, step by step, and a step that fails leaves the session as it has become by
then. What an edit needs is checked on the contents of the model; the list that it adds to is looked up anew
among the elements that can be changed.
-/
set_option autoImplicit false

namespace DomainAtlas

structure Session where
  model : TrackedModel := {}
  /-- The next identity to be given; those given before are less. -/
  next : ElementId := 1
  deriving DecidableEq, Repr

def Session.contents (session : Session) : Model :=
  session.model.contents

/-- A session whose elements have the first numbers. -/
def Session.ofModel (model : Model) : Session :=
  let numbered := model.track 1
  { model := numbered.1, next := numbered.2 }

/-- A part of something that can be changed: its value, and the whole with another value in its place. -/
structure Focus (σ α : Type) where
  value : α
  put : α → σ

namespace Focus

variable {σ τ α : Type}

/-- The part of a part. -/
def inside (outer : Focus σ τ) (inner : Focus τ α) : Focus σ α :=
  ⟨inner.value, fun changed => outer.put (inner.put changed)⟩

/-- The first part that `inner?` finds in a list of elements. -/
def first? (inner? : τ → Option (Focus τ α)) : List τ → Option (Focus (List τ) α)
  | [] => none
  | value :: values =>
    match inner? value with
    | some focus => some ⟨focus.value, fun changed => focus.put changed :: values⟩
    | none => (first? inner? values).map fun focus => ⟨focus.value, fun changed => value :: focus.put changed⟩

/-- The content of an element that `test` is true of. The element keeps its identity. -/
def content? (test : α → Bool) (element : Identified α) : Option (Focus (Identified α) α) :=
  if test element.value then some ⟨element.value, fun changed => { element with value := changed }⟩ else none

end Focus

namespace TrackedModule

def aggregate? (name : String) (module : TrackedModule) : Option (Focus TrackedModule TrackedAggregate) :=
  (Focus.first? (Focus.content? (·.name == name)) module.aggregates).map fun focus =>
    ⟨focus.value, fun changed => { module with aggregates := focus.put changed }⟩

end TrackedModule

namespace TrackedContext

def module? (name : String) (context : TrackedContext) : Option (Focus TrackedContext TrackedModule) :=
  (Focus.first? (Focus.content? (·.name == name)) context.modules).map fun focus =>
    ⟨focus.value, fun changed => { context with modules := focus.put changed }⟩

/-- The aggregates of the context come before those of its modules. -/
def aggregate? (name : String) (context : TrackedContext) : Option (Focus TrackedContext TrackedAggregate) :=
  let own? := (Focus.first? (Focus.content? (·.name == name)) context.aggregates).map fun focus =>
    (⟨focus.value, fun changed => { context with aggregates := focus.put changed }⟩ : Focus _ _)
  let ofModule? := (Focus.first? aggregateIn? context.modules).map fun focus =>
    (⟨focus.value, fun changed => { context with modules := focus.put changed }⟩ : Focus _ _)
  own?.or ofModule?
where
  aggregateIn? (module : Identified TrackedModule) : Option (Focus (Identified TrackedModule) TrackedAggregate) :=
    (module.value.aggregate? name).map fun focus =>
      ⟨focus.value, fun changed => { module with value := focus.put changed }⟩

end TrackedContext

def TrackedModel.context? (name : String) (model : TrackedModel) : Option (Focus TrackedModel TrackedContext) :=
  (Focus.first? (Focus.content? (·.name == name)) model.boundedContexts).map fun focus =>
    ⟨focus.value, fun changed => { model with boundedContexts := focus.put changed }⟩

namespace TrackedAggregate

/-- Adds a member to the end of the list that it belongs to. -/
def append (aggregate : TrackedAggregate) (id : ElementId) : Member → TrackedAggregate
  | .entity content => { aggregate with entities := aggregate.entities ++ [⟨id, content⟩] }
  | .valueObject content => { aggregate with valueObjects := aggregate.valueObjects ++ [⟨id, content⟩] }
  | .domainEvent content => { aggregate with domainEvents := aggregate.domainEvents ++ [⟨id, content⟩] }
  | .command content => { aggregate with commands := aggregate.commands ++ [⟨id, content⟩] }
  | .service content => { aggregate with services := aggregate.services ++ [⟨id, content⟩] }

end TrackedAggregate

/-- A step that changes a session; where it fails, the session stays as the step left it. -/
abbrev Editing (ε α : Type) := EStateM ε Session α

namespace Editing

variable {ε : Type}

def fresh : Editing ε ElementId :=
  modifyGet fun session => (session.next, { session with next := session.next + 1 })

def setModel (model : TrackedModel) : Editing ε Unit :=
  modify fun session => { session with model }

def contextMut (name : String) : Editing Rejection (Focus TrackedModel TrackedContext) := do
  let session ← get
  match session.model.context? name with
  | some target => return target
  | none => throw (.unknownContext name)

def aggregateMut (context aggregate : String) : Editing Rejection (Focus TrackedModel TrackedAggregate) := do
  let owner ← contextMut context
  match owner.value.aggregate? aggregate with
  | some target => return owner.inside target
  | none => throw (.unknownAggregate context aggregate)

def addBoundedContext (raw : String) : Editing Rejection ElementId := do
  let name ← MonadExcept.ofExcept (checkedName raw)
  let session ← get
  if session.contents.hasContext name then throw (.duplicate .boundedContext name .model)
  let id ← fresh
  setModel { session.model with boundedContexts := session.model.boundedContexts ++ [⟨id, { name }⟩] }
  return id

def addModule (context raw : String) : Editing Rejection ElementId := do
  let name ← MonadExcept.ofExcept (checkedName raw)
  let target ← contextMut context
  if target.value.contents.modules.any (fun module => module.name == name) then
    throw (.duplicate .module name (.boundedContext context))
  let id ← fresh
  setModel (target.put { target.value with modules := target.value.modules ++ [⟨id, { name }⟩] })
  return id

/-- Adds an empty aggregate to a context, or to a module of it. -/
def addAggregate (context : String) (module? : Option String) (raw : String) : Editing Rejection ElementId := do
  let name ← MonadExcept.ofExcept (checkedName raw)
  MonadExcept.ofExcept (refuseReserved name)
  let target ← contextMut context
  if target.value.contents.hasAggregate name then
    throw (.duplicate .aggregate name (.boundedContext context))
  match module? with
  | none =>
    let id ← fresh
    setModel (target.put { target.value with aggregates := target.value.aggregates ++ [⟨id, { name }⟩] })
    return id
  | some module =>
    match target.value.module? module with
    | none => throw (.unknownModule context module)
    | some found =>
      let id ← fresh
      setModel ((target.inside found).put
        { found.value with aggregates := found.value.aggregates ++ [⟨id, { name }⟩] })
      return id

def insert (context aggregate : String) (member : Member) : Editing Rejection ElementId := do
  let target ← aggregateMut context aggregate
  let id ← fresh
  setModel (target.put (target.value.append id member))
  return id

def addMember (context aggregate : String) (member : Member) : Editing Rejection ElementId := do
  let session ← get
  let prepared ← MonadExcept.ofExcept (session.contents.prepare context aggregate [] member)
  insert context aggregate prepared

def insertAll (context aggregate : String) : List Member → Editing Rejection (List ElementId)
  | [] => return []
  | member :: members => do
    let id ← insert context aggregate member
    let ids ← insertAll context aggregate members
    return id :: ids

/-- Adds several members of one kind to one aggregate; nothing is inserted before all are prepared. -/
def addMembers (context aggregate : String) (members : List Member) (mode : BatchMode) :
    Editing EditError (List ElementId) := do
  let session ← get
  match session.contents.prepareAll context aggregate mode 0 [] members with
  | (accepted, []) => (insertAll context aggregate accepted).adaptExcept .rejected
  | (_, failures) => throw (.batch members.length failures)

def mapOrNew (model : TrackedModel) : Editing Rejection (Identified TrackedMap) :=
  match model.contextMap with
  | some map => return map
  | none => return ⟨← fresh, {}⟩

/-- Adds a relationship to the context map, which is created where there is none. -/
def addRelationship (relationship : Relationship) : Editing Rejection ElementId := do
  let session ← get
  let _ ← MonadExcept.ofExcept (session.contents.requireContext relationship.participants.1)
  let _ ← MonadExcept.ofExcept (session.contents.requireContext relationship.participants.2)
  MonadExcept.ofExcept (session.contents.requireExposed relationship)
  let id ← fresh
  let map ← mapOrNew session.model
  setModel { session.model with
    contextMap := some { map with
      value := { map.value with relationships := map.value.relationships ++ [⟨id, relationship⟩] } } }
  return id

def single (step : Editing Rejection ElementId) : Editing EditError (List ElementId) := do
  let id ← step.adaptExcept .rejected
  return [id]

def perform : Edit → Editing EditError (List ElementId)
  | .boundedContext name => single (addBoundedContext name)
  | .module context name => single (addModule context name)
  | .aggregate context module? name => single (addAggregate context module? name)
  | .member context aggregate member => single (addMember context aggregate member)
  | .entities context aggregate entities mode => addMembers context aggregate (entities.map .entity) mode
  | .valueObjects context aggregate objects mode =>
    addMembers context aggregate (objects.map .valueObject) mode
  | .relationship relationship => single (addRelationship relationship)

end Editing

/-- The session after an edit, whether or not the edit is refused. -/
def Session.after (session : Session) (edit : Edit) : Session :=
  match (Editing.perform edit).run session with
  | .ok _ later => later
  | .error _ later => later

def Session.afterAll (session : Session) (edits : List Edit) : Session :=
  edits.foldl Session.after session

end DomainAtlas
