import DomainAtlas.Editing.Rejection
/-!
# Members of aggregates

The five kinds of elements that an aggregate holds, and the normal form in which edits add them: names
reduced to words, types in canonical form.
-/
set_option autoImplicit false

namespace DomainAtlas

inductive MemberKind
  | entity
  | valueObject
  | domainEvent
  | command
  | service
  deriving DecidableEq, Repr

namespace MemberKind

def keyword : MemberKind → Keyword
  | entity => .entity
  | valueObject => .valueObject
  | domainEvent => .domainEvent
  | command => .command
  | service => .service

def field : MemberKind → Field
  | entity => .entities
  | valueObject => .valueObjects
  | domainEvent => .domainEvents
  | command => .commands
  | service => .services

/-- Whether the names of the kind are shared by the whole model. -/
def sharesNames : MemberKind → Bool
  | service => false
  | _ => true

/-- The names of an aggregate's members of the kind. -/
def names (aggregate : Aggregate) : MemberKind → List String
  | entity => aggregate.entities.map (·.name)
  | valueObject => aggregate.valueObjects.map (·.name)
  | domainEvent => aggregate.domainEvents.map (·.name)
  | command => aggregate.commands.map (·.name)
  | service => aggregate.services.map (·.name)

end MemberKind

inductive Member
  | entity (content : Entity)
  | valueObject (content : DomainObject)
  | domainEvent (content : DomainObject)
  | command (content : DomainObject)
  | service (content : Service)
  deriving DecidableEq, Repr

def checkedName (raw : String) : Except Rejection String :=
  let name := Text.wordOf raw
  if name = "" then .error (.emptyName raw) else .ok name

def refuseReserved (name : String) : Except Rejection Unit :=
  match reservedSpelling? name with
  | some reserved => .error (.reservedName name reserved)
  | none => .ok ()

def checkedType (site : TypeSite) (type : String) : Except Rejection String :=
  match acceptType type with
  | .ok accepted => .ok accepted.text
  | .error reason => .error (.invalidType site reason)

def Attribute.normalize (member : Attribute) : Except Rejection Attribute := do
  let name ← checkedName member.name
  let type ← checkedType (.attribute name) member.type
  return { member with name, type }

def Parameter.normalize (operation : String) (parameter : Parameter) : Except Rejection Parameter := do
  let name ← checkedName parameter.name
  let type ← checkedType (.parameter name operation) parameter.type
  return { name, type }

def checkedReturn (operation : String) : Option String → Except Rejection (Option String)
  | none => .ok none
  | some type => some <$> checkedType (.returned operation) type

def Operation.normalize (member : Operation) : Except Rejection Operation := do
  let name ← checkedName member.name
  let returnType ← checkedReturn name member.returnType
  let parameters ← member.parameters.mapM (Parameter.normalize name)
  return { name, returnType, parameters }

def Entity.normalize (entity : Entity) : Except Rejection Entity := do
  let attributes ← entity.attributes.mapM Attribute.normalize
  let operations ← entity.operations.mapM Operation.normalize
  return { entity with attributes, operations }

def DomainObject.normalize (object : DomainObject) : Except Rejection DomainObject := do
  let attributes ← object.attributes.mapM Attribute.normalize
  return { object with attributes }

def Service.normalize (service : Service) : Except Rejection Service := do
  let operations ← service.operations.mapM Operation.normalize
  return { service with operations }

namespace Member

def kind : Member → MemberKind
  | entity _ => .entity
  | valueObject _ => .valueObject
  | domainEvent _ => .domainEvent
  | command _ => .command
  | service _ => .service

def name : Member → String
  | entity content => content.name
  | valueObject content => content.name
  | domainEvent content => content.name
  | command content => content.name
  | service content => content.name

def rename (name : String) : Member → Member
  | entity content => .entity { content with name }
  | valueObject content => .valueObject { content with name }
  | domainEvent content => .domainEvent { content with name }
  | command content => .command { content with name }
  | service content => .service { content with name }

/-- Brings what the member holds into normal form; its own name stays. -/
def normalize : Member → Except Rejection Member
  | entity content => entity <$> content.normalize
  | valueObject content => valueObject <$> content.normalize
  | domainEvent content => domainEvent <$> content.normalize
  | command content => command <$> content.normalize
  | service content => service <$> content.normalize

end Member

def Aggregate.append (aggregate : Aggregate) : Member → Aggregate
  | .entity content => { aggregate with entities := aggregate.entities ++ [content] }
  | .valueObject content => { aggregate with valueObjects := aggregate.valueObjects ++ [content] }
  | .domainEvent content => { aggregate with domainEvents := aggregate.domainEvents ++ [content] }
  | .command content => { aggregate with commands := aggregate.commands ++ [content] }
  | .service content => { aggregate with services := aggregate.services ++ [content] }

end DomainAtlas
