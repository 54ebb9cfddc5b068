import DomainAtlas.Proofs.Grammar.Phrase
import DomainAtlas.Syntax

/-! # The grammar

The productions of the language as phrases, each with the tree that it stands for. Where a production
says more than its EBNF, a comment says so. `document` is the start symbol.
-/
set_option autoImplicit false

namespace DomainAtlas.Phrase

def symbol (s : Symbol) : Phrase Unit :=
  token fun t => if t = .symbol s then some () else none

def keyword (k : Keyword) : Phrase Unit :=
  token fun t => if t = .keyword k then some () else none

def keywordValue {α : Type} (value? : Keyword → Option α) : Phrase α :=
  token fun
    | .keyword k => value? k
    | _ => none

def name : Phrase String :=
  token fun
    | .name text => some text
    | _ => none

/-- A name, or a keyword that starts with a letter in lower case. -/
def attributeName : Phrase String :=
  token fun
    | .name text => some text
    | .keyword k => if k.isAttributeName then some k.text else none
    | _ => none

/-- A name or any keyword. -/
def word : Phrase String :=
  token fun
    | .name text => some text
    | .keyword k => some k.text
    | _ => none

def string : Phrase String :=
  token fun
    | .string value => some value
    | _ => none

theorem symbol_iff {s : Symbol} {tokens : List Token} {value : Unit} :
    symbol s tokens value ↔ tokens = [.symbol s] := by
  constructor
  · rintro ⟨t, rfl, h⟩
    dsimp only at h
    split at h
    · rename_i hSymbol
      rw [hSymbol]
    · cases h
  · rintro rfl
    exact ⟨_, rfl, by simp⟩

theorem keyword_iff {k : Keyword} {tokens : List Token} {value : Unit} :
    keyword k tokens value ↔ tokens = [.keyword k] := by
  constructor
  · rintro ⟨t, rfl, h⟩
    dsimp only at h
    split at h
    · rename_i hKeyword
      rw [hKeyword]
    · cases h
  · rintro rfl
    exact ⟨_, rfl, by simp⟩

theorem keywordValue_iff {α : Type} {value? : Keyword → Option α} {tokens : List Token} {value : α} :
    keywordValue value? tokens value ↔ ∃ k, tokens = [.keyword k] ∧ value? k = some value := by
  constructor
  · rintro ⟨t, rfl, h⟩
    dsimp only at h
    split at h
    · exact ⟨_, rfl, h⟩
    · cases h
  · rintro ⟨k, rfl, h⟩
    exact ⟨_, rfl, h⟩

theorem name_iff {tokens : List Token} {text : String} : name tokens text ↔ tokens = [.name text] := by
  constructor
  · rintro ⟨t, rfl, h⟩
    dsimp only at h
    split at h
    · cases h
      rfl
    · cases h
  · rintro rfl
    exact ⟨_, rfl, rfl⟩

theorem string_iff {tokens : List Token} {value : String} :
    string tokens value ↔ tokens = [.string value] := by
  constructor
  · rintro ⟨t, rfl, h⟩
    dsimp only at h
    split at h
    · cases h
      rfl
    · cases h
  · rintro rfl
    exact ⟨_, rfl, rfl⟩

def names : Phrase (List String) :=
  separated (symbol .comma) name

def strings : Phrase (List String) :=
  separated (symbol .comma) string

def block {α : Type} (item : Phrase α) : Phrase (List α) := do
  symbol .leftBrace
  let items ← many item
  symbol .rightBrace
  return items

def optionalBlock {α : Type} (item : Phrase α) : Phrase (List α) :=
  orEmpty (block item)

def property {α : Type} (k : Keyword) (value : Phrase α) : Phrase α := do
  keyword k
  symbol .equals
  value

/-! ## Types and members -/

def collectionType : Phrase TypeRef := do
  let kind ← keywordValue CollectionKind.ofKeyword?
  symbol .lessThan
  let element ← name
  symbol .greaterThan
  return .collection kind element

def referenceType : Phrase TypeRef := do
  symbol .dash
  let target ← name
  return .reference target

def namedType : Phrase TypeRef := do
  let text ← name
  return .named text

def typeRef : Phrase TypeRef :=
  collectionType <|> referenceType <|> namedType

def attributeDecl : Phrase AttributeDecl := do
  let type ← typeRef
  let name ← attributeName
  let key ← present (keyword .key)
  let nullable ← present (keyword .nullable)
  let _ ← optional (symbol .semicolon)
  return { type, name, key, nullable }

def parameterDecl : Phrase ParameterDecl := do
  let type ← typeRef
  let name ← attributeName
  return { type, name }

def operationDecl : Phrase OperationDecl := do
  keyword .define
  let returnType ← optional typeRef
  let name ← attributeName
  symbol .leftParen
  let parameters ← orEmpty (separated (symbol .comma) parameterDecl)
  symbol .rightParen
  let _ ← optional (symbol .semicolon)
  return { returnType, name, parameters }

def rootMark : Phrase EntityItem := do
  keyword .aggregateRoot
  return .root

def entityItem : Phrase EntityItem :=
  rootMark <|> EntityItem.operation <$> operationDecl <|> EntityItem.attribute <$> attributeDecl

def entityDecl : Phrase EntityDecl := do
  keyword .entity
  let name ← name
  let items ← optionalBlock entityItem
  return { name, items }

def objectDecl (kind : Keyword) : Phrase ObjectDecl := do
  keyword kind
  let name ← name
  let attributes ← optionalBlock attributeDecl
  return { name, attributes }

def serviceDecl : Phrase ServiceDecl := do
  keyword .service
  let name ← name
  let operations ← optionalBlock operationDecl
  return { name, operations }

/-! ## Contexts -/

def responsibilities : Phrase (List String) :=
  property .responsibilities strings

def knowledgeLevel : Phrase KnowledgeLevel :=
  property .knowledgeLevel (keywordValue KnowledgeLevel.ofKeyword?)

def implementationTechnology : Phrase String :=
  property .implementationTechnology string

def aggregateItem : Phrase AggregateItem :=
  AggregateItem.responsibilities <$> responsibilities
    <|> AggregateItem.knowledgeLevel <$> knowledgeLevel
    <|> AggregateItem.entity <$> entityDecl
    <|> AggregateItem.valueObject <$> objectDecl .valueObject
    <|> AggregateItem.domainEvent <$> objectDecl .domainEvent
    <|> AggregateItem.command <$> objectDecl .command
    <|> AggregateItem.service <$> serviceDecl

def aggregateDecl : Phrase AggregateDecl := do
  keyword .aggregate
  let name ← name
  let items ← block aggregateItem
  return { name, items }

def moduleDecl : Phrase ModuleDecl := do
  keyword .module
  let name ← name
  let aggregates ← block aggregateDecl
  return { name, aggregates }

def contextItem : Phrase ContextItem :=
  ContextItem.visionStatement <$> property .domainVisionStatement string
    <|> ContextItem.responsibilities <$> responsibilities
    <|> ContextItem.implementationTechnology <$> implementationTechnology
    <|> ContextItem.knowledgeLevel <$> knowledgeLevel
    <|> ContextItem.type <$> property .type (keywordValue ContextType.ofKeyword?)
    <|> ContextItem.aggregate <$> aggregateDecl
    <|> ContextItem.module <$> moduleDecl

def contextDecl : Phrase ContextDecl := do
  keyword .boundedContext
  let name ← name
  let items ← block contextItem
  return { name, items }

/-! ## Context maps -/

def wordedRelationship : Phrase RelationshipDecl := do
  let left ← name
  let kind ← keywordValue SymmetricKind.ofKeyword?
  let right ← name
  return .symmetric kind left right

def symmetricMark : Phrase SymmetricKind := do
  symbol .leftBracket
  let kind ← keywordValue SymmetricKind.ofMark?
  symbol .rightBracket
  return kind

/-- Both marks are of one kind. -/
def markedRelationship : Phrase RelationshipDecl := do
  let left ← name
  let kind ← symmetricMark
  symbol .doubleArrow
  let _ ← satisfying (· = kind) symmetricMark
  let right ← name
  return .symmetric kind left right

def roles {α : Type} (short long : Keyword) (pattern : Phrase α) : Phrase (List α) := do
  symbol .leftBracket
  keyword short <|> keyword long
  let patterns ← many do
    symbol .comma
    pattern
  symbol .rightBracket
  return patterns

def upstreamRoles : Phrase (List UpstreamPattern) :=
  roles .u .upstream (keywordValue UpstreamPattern.ofKeyword?)

def downstreamRoles : Phrase (List DownstreamPattern) :=
  roles .d .downstream (keywordValue DownstreamPattern.ofKeyword?)

def relationshipItem : Phrase RelationshipItem :=
  RelationshipItem.exposedAggregates <$> property .exposedAggregates names
    <|> RelationshipItem.implementationTechnology <$> implementationTechnology

def forwardRelationship : Phrase RelationshipDecl := do
  let upstream ← name
  let upstreamPatterns ← orEmpty upstreamRoles
  symbol .arrow
  let downstreamPatterns ← orEmpty downstreamRoles
  let downstream ← name
  let body ← optionalBlock relationshipItem
  return .directed upstream downstream upstreamPatterns downstreamPatterns body

def backwardRelationship : Phrase RelationshipDecl := do
  let downstream ← name
  let downstreamPatterns ← orEmpty downstreamRoles
  symbol .leftArrow
  let upstreamPatterns ← orEmpty upstreamRoles
  let upstream ← name
  let body ← optionalBlock relationshipItem
  return .directed upstream downstream upstreamPatterns downstreamPatterns body

def relationship : Phrase RelationshipDecl :=
  wordedRelationship
    <|> markedRelationship
    <|> forwardRelationship
    <|> backwardRelationship

def contained : Phrase (List String) := do
  keyword .contains
  names

def mapItem : Phrase MapItem :=
  MapItem.type <$> property .type word
    <|> MapItem.state <$> property .state (keywordValue MapState.ofKeyword?)
    <|> MapItem.contains <$> contained
    <|> MapItem.relationship <$> relationship

def mapDecl : Phrase MapDecl := do
  keyword .contextMap
  let name ← optional name
  let items ← block mapItem
  return { name, items }

def declaration : Phrase Declaration :=
  Declaration.contextMap <$> mapDecl <|> Declaration.boundedContext <$> contextDecl

def document : Phrase (List Declaration) :=
  many declaration

end DomainAtlas.Phrase
