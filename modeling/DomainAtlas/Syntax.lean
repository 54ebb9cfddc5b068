import DomainAtlas.TypeRef
/-!
# Declarations as written

The tree of a document before it is folded into a model: the items of each block in source order, with
repetitions and in any mixture.
-/
set_option autoImplicit false

namespace DomainAtlas

structure AttributeDecl where
  type : TypeRef
  name : String
  key : Bool
  nullable : Bool
  deriving DecidableEq, Repr

structure ParameterDecl where
  type : TypeRef
  name : String
  deriving DecidableEq, Repr

structure OperationDecl where
  returnType : Option TypeRef
  name : String
  parameters : List ParameterDecl
  deriving DecidableEq, Repr

inductive EntityItem
  | root
  | attribute (decl : AttributeDecl)
  | operation (decl : OperationDecl)
  deriving DecidableEq, Repr

structure EntityDecl where
  name : String
  items : List EntityItem
  deriving DecidableEq, Repr

/-- A value object, a domain event or a command. -/
structure ObjectDecl where
  name : String
  attributes : List AttributeDecl
  deriving DecidableEq, Repr

structure ServiceDecl where
  name : String
  operations : List OperationDecl
  deriving DecidableEq, Repr

inductive AggregateItem
  | responsibilities (texts : List String)
  | knowledgeLevel (level : KnowledgeLevel)
  | entity (decl : EntityDecl)
  | valueObject (decl : ObjectDecl)
  | domainEvent (decl : ObjectDecl)
  | command (decl : ObjectDecl)
  | service (decl : ServiceDecl)
  deriving DecidableEq, Repr

structure AggregateDecl where
  name : String
  items : List AggregateItem
  deriving DecidableEq, Repr

structure ModuleDecl where
  name : String
  aggregates : List AggregateDecl
  deriving DecidableEq, Repr

inductive ContextItem
  | visionStatement (text : String)
  | responsibilities (texts : List String)
  | implementationTechnology (text : String)
  | knowledgeLevel (level : KnowledgeLevel)
  | type (type : ContextType)
  | aggregate (decl : AggregateDecl)
  | module (decl : ModuleDecl)
  deriving DecidableEq, Repr

structure ContextDecl where
  name : String
  items : List ContextItem
  deriving DecidableEq, Repr

inductive RelationshipItem
  | exposedAggregates (names : List String)
  | implementationTechnology (text : String)
  deriving DecidableEq, Repr

inductive RelationshipDecl
  | symmetric (kind : SymmetricKind) (left right : String)
  | directed (upstream downstream : String) (upstreamPatterns : List UpstreamPattern)
    (downstreamPatterns : List DownstreamPattern) (body : List RelationshipItem)
  deriving DecidableEq, Repr

inductive MapItem
  | type (word : String)
  | state (state : MapState)
  | contains (names : List String)
  | relationship (decl : RelationshipDecl)
  deriving DecidableEq, Repr

structure MapDecl where
  name : Option String
  items : List MapItem
  deriving DecidableEq, Repr

inductive Declaration
  | contextMap (decl : MapDecl)
  | boundedContext (decl : ContextDecl)
  deriving DecidableEq, Repr

/-- The number of tokens up to the name, or up to the keyword where there is no name. -/
def Declaration.headerLength : Declaration → Nat
  | contextMap decl => if decl.name.isSome then 2 else 1
  | boundedContext _ => 2

end DomainAtlas
