import DomainAtlas.Text.Word
/-!
# Keywords

The words that the lexer tells apart from names. Forty-five of them have a place in the grammar; the
others are held back. A third list, compared ignoring case, names what no domain object may be called.
-/
set_option autoImplicit false

namespace DomainAtlas

/-- Words that are keywords although no production uses them. -/
def reservedWords : List String :=
  ["Domain", "Subdomain", "Flow", "Repository", "Resource", "Consumer", "Event", "Trait", "UseCase",
    "Stakeholders", "enum", "abstract", "extends", "package", "import", "hint", "query", "gap",
    "nogap", "scaffold", "cache", "inverse", "opposite", "required", "transient", "index", "length",
    "belongsTo", "owner", "realizes", "implements", "refines", "service", "module", "entity", "event",
    "command", "aggregate", "domain", "version", "basePackage"]

abbrev ReservedWord := { word : String // word ∈ reservedWords }

inductive Keyword
  | contextMap | boundedContext | aggregate | module | entity | valueObject | domainEvent | command
  | service | type | state | contains | domainVisionStatement | responsibilities
  | implementationTechnology | knowledgeLevel | aggregateRoot | key | nullable | exposedAggregates
  | define | list | set | partnership | sharedKernel | u | d | upstream | downstream | ohs | pl | acl
  | cf | p | sk | asIs | toBe | metaLevel | concreteLevel | feature | application | system | team
  | systemLandscape | organizational
  | reserved (word : ReservedWord)
  deriving DecidableEq, Repr

namespace Keyword

def structural : List Keyword :=
  [contextMap, boundedContext, aggregate, module, entity, valueObject, domainEvent, command, service,
    type, state, contains, domainVisionStatement, responsibilities, implementationTechnology,
    knowledgeLevel, aggregateRoot, key, nullable, exposedAggregates, define, list, set, partnership,
    sharedKernel, u, d, upstream, downstream, ohs, pl, acl, cf, p, sk, asIs, toBe, metaLevel, concreteLevel,
    feature, application, system, team, systemLandscape, organizational]

/-- The word as it stands in a document. -/
def text : Keyword → String
  | contextMap => "ContextMap"
  | boundedContext => "BoundedContext"
  | aggregate => "Aggregate"
  | module => "Module"
  | entity => "Entity"
  | valueObject => "ValueObject"
  | domainEvent => "DomainEvent"
  | command => "Command"
  | service => "Service"
  | type => "type"
  | state => "state"
  | contains => "contains"
  | domainVisionStatement => "domainVisionStatement"
  | responsibilities => "responsibilities"
  | implementationTechnology => "implementationTechnology"
  | knowledgeLevel => "knowledgeLevel"
  | aggregateRoot => "aggregateRoot"
  | key => "key"
  | nullable => "nullable"
  | exposedAggregates => "exposedAggregates"
  | define => "def"
  | list => "List"
  | set => "Set"
  | partnership => "Partnership"
  | sharedKernel => "SharedKernel"
  | u => "U"
  | d => "D"
  | upstream => "Upstream"
  | downstream => "Downstream"
  | ohs => "OHS"
  | pl => "PL"
  | acl => "ACL"
  | cf => "CF"
  | p => "P"
  | sk => "SK"
  | asIs => "AS_IS"
  | toBe => "TO_BE"
  | metaLevel => "META"
  | concreteLevel => "CONCRETE"
  | feature => "FEATURE"
  | application => "APPLICATION"
  | system => "SYSTEM"
  | team => "TEAM"
  | systemLandscape => "SYSTEM_LANDSCAPE"
  | organizational => "ORGANIZATIONAL"
  | reserved word => word.val

/-- All keywords, those of the grammar first. -/
def all : List Keyword :=
  structural ++ reservedWords.attach.map reserved

def words : List String :=
  all.map text

def ofWord? (word : String) : Option Keyword :=
  all.find? fun keyword => keyword.text == word

def isStructural : Keyword → Bool
  | reserved _ => false
  | _ => true

/-- Keywords in lower case may stand where the name of an attribute, a parameter or an operation is
expected. -/
def isAttributeName (keyword : Keyword) : Bool :=
  match keyword.text.toList with
  | [] => false
  | c :: _ => c.isLower

theorem text_of_ofWord?_eq_some {word : String} {keyword : Keyword} (h : ofWord? word = some keyword) :
    keyword.text = word := by
  have := List.find?_some h
  simpa using this

end Keyword

def isKeyword (word : String) : Bool :=
  (Keyword.ofWord? word).isSome

/-- Whether some keyword differs from `word` at most in the case of letters. -/
def isReservedWord (word : String) : Bool :=
  Keyword.words.any (Text.sameIgnoringCase · word)

/-- Names that no aggregate, entity, value object, event, command or service may bear. -/
def reservedObjectNames : List String :=
  ["Resource", "Service", "Repository", "Module", "Entity", "ValueObject", "DomainEvent", "Command",
    "Aggregate", "BoundedContext", "ContextMap", "Domain", "Subdomain", "Application", "Event"]

/-- The listed spelling of a reserved name that differs from `name` at most in the case of letters. -/
def reservedObjectName? (name : String) : Option String :=
  reservedObjectNames.find? (Text.sameIgnoringCase · name)

end DomainAtlas
