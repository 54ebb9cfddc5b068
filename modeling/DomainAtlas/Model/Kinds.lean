import DomainAtlas.Keyword
/-!
# Closed vocabularies

The properties of a model that take one of a few values. Each value is written as a keyword.
-/
set_option autoImplicit false

namespace DomainAtlas

/-- Whether a context or an aggregate holds knowledge about the domain or about its description. -/
inductive KnowledgeLevel
  | metaLevel
  | concreteLevel
  deriving DecidableEq, Repr

namespace KnowledgeLevel

def keyword : KnowledgeLevel → Keyword
  | metaLevel => .metaLevel
  | concreteLevel => .concreteLevel

def ofKeyword? : Keyword → Option KnowledgeLevel
  | .metaLevel => some metaLevel
  | .concreteLevel => some concreteLevel
  | _ => none

end KnowledgeLevel

inductive ContextType
  | feature
  | application
  | system
  | team
  deriving DecidableEq, Repr

namespace ContextType

def keyword : ContextType → Keyword
  | feature => .feature
  | application => .application
  | system => .system
  | team => .team

def ofKeyword? : Keyword → Option ContextType
  | .feature => some feature
  | .application => some application
  | .system => some system
  | .team => some team
  | _ => none

end ContextType

/-- Whether a map shows the landscape as it stands or as it is meant to become. -/
inductive MapState
  | asIs
  | toBe
  deriving DecidableEq, Repr

namespace MapState

def keyword : MapState → Keyword
  | asIs => .asIs
  | toBe => .toBe

def ofKeyword? : Keyword → Option MapState
  | .asIs => some asIs
  | .toBe => some toBe
  | _ => none

end MapState

inductive SymmetricKind
  | partnership
  | sharedKernel
  deriving DecidableEq, Repr

namespace SymmetricKind

def keyword : SymmetricKind → Keyword
  | partnership => .partnership
  | sharedKernel => .sharedKernel

def ofKeyword? : Keyword → Option SymmetricKind
  | .partnership => some partnership
  | .sharedKernel => some sharedKernel
  | _ => none

/-- The short form that stands in brackets on both sides of an arrow. -/
def mark : SymmetricKind → Keyword
  | partnership => .p
  | sharedKernel => .sk

def ofMark? : Keyword → Option SymmetricKind
  | .p => some partnership
  | .sk => some sharedKernel
  | _ => none

end SymmetricKind

/-- What the upstream side of a relationship offers. -/
inductive UpstreamPattern
  | openHostService
  | publishedLanguage
  deriving DecidableEq, Repr

namespace UpstreamPattern

def keyword : UpstreamPattern → Keyword
  | openHostService => .ohs
  | publishedLanguage => .pl

def ofKeyword? : Keyword → Option UpstreamPattern
  | .ohs => some openHostService
  | .pl => some publishedLanguage
  | _ => none

end UpstreamPattern

/-- How the downstream side of a relationship copes. -/
inductive DownstreamPattern
  | antiCorruptionLayer
  | conformist
  deriving DecidableEq, Repr

namespace DownstreamPattern

def keyword : DownstreamPattern → Keyword
  | antiCorruptionLayer => .acl
  | conformist => .cf

def ofKeyword? : Keyword → Option DownstreamPattern
  | .acl => some antiCorruptionLayer
  | .cf => some conformist
  | _ => none

end DownstreamPattern

inductive CollectionKind
  | list
  | set
  deriving DecidableEq, Repr

namespace CollectionKind

def keyword : CollectionKind → Keyword
  | list => .list
  | set => .set

def ofKeyword? : Keyword → Option CollectionKind
  | .list => some list
  | .set => some set
  | _ => none

end CollectionKind

end DomainAtlas
