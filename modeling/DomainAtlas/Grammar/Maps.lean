import DomainAtlas.Grammar.Contexts
/-!
# Context maps, relationships and whole declarations
-/
set_option autoImplicit false

namespace DomainAtlas.Grammar

open Reader

variable {ι : Type} [Readable ι]

def wordedRelationship : Reader ι RelationshipDecl := do
  let left ← name
  let kind ← keywordValue .symmetricKind SymmetricKind.ofKeyword?
  commit do
    let right ← name
    return .symmetric kind left right

def symmetricMark : Reader ι SymmetricKind := do
  symbol .leftBracket
  let kind ← keywordValue .symmetricMark SymmetricKind.ofMark?
  symbol .rightBracket
  return kind

/-- Two names with an arrow that bears the kind of their relationship at both ends. -/
def markedRelationship : Reader ι RelationshipDecl := do
  let left ← name
  let kind ← symmetricMark
  symbol .doubleArrow
  commit do
    let _ ← expecting .sameSymmetricKind (satisfying (· == kind) symmetricMark)
    let right ← name
    return .symmetric kind left right

/-- What stands at one end of an arrow: the side, short or in full, and its patterns. The side decides,
and so does each comma. -/
def roles {α : Type} (short long : Keyword) (pattern : Reader ι α) : Reader ι (List α) := do
  symbol .leftBracket
  keyword short <|> keyword long
  commit do
    let patterns ← many do
      comma
      commit pattern
    symbol .rightBracket
    return patterns

def upstreamRoles : Reader ι (List UpstreamPattern) :=
  roles .u .upstream (keywordValue .upstreamPattern UpstreamPattern.ofKeyword?)

def downstreamRoles : Reader ι (List DownstreamPattern) :=
  roles .d .downstream (keywordValue .downstreamPattern DownstreamPattern.ofKeyword?)

def relationshipItem : Reader ι RelationshipItem :=
  RelationshipItem.exposedAggregates <$> property .exposedAggregates names
    <|> RelationshipItem.implementationTechnology <$> implementationTechnology

def forwardRelationship : Reader ι RelationshipDecl := do
  let upstream ← name
  let upstreamPatterns ← orEmpty upstreamRoles
  symbol .arrow
  commit do
    let downstreamPatterns ← orEmpty downstreamRoles
    let downstream ← expecting .downstreamContext name
    let body ← optionalBlock relationshipItem
    return .directed upstream downstream upstreamPatterns downstreamPatterns body

def backwardRelationship : Reader ι RelationshipDecl := do
  let downstream ← name
  let downstreamPatterns ← orEmpty downstreamRoles
  symbol .leftArrow
  commit do
    let upstreamPatterns ← orEmpty upstreamRoles
    let upstream ← expecting .upstreamContext name
    let body ← optionalBlock relationshipItem
    return .directed upstream downstream upstreamPatterns downstreamPatterns body

def relationship : Reader ι RelationshipDecl :=
  expecting .relationship
    (wordedRelationship <|> markedRelationship <|> forwardRelationship <|> backwardRelationship)

def contained : Reader ι (List String) := do
  keyword .contains
  commit names

def mapItem : Reader ι MapItem :=
  MapItem.type <$> property .type word
    <|> MapItem.state <$> property .state (keywordValue .mapState MapState.ofKeyword?)
    <|> MapItem.contains <$> contained
    <|> MapItem.relationship <$> relationship

def mapDecl : Reader ι MapDecl := do
  keyword .contextMap
  commit do
    let name ← optional name
    let items ← block mapItem
    return { name, items }

def declaration : Reader ι Declaration :=
  Declaration.contextMap <$> expecting .contextMap mapDecl
    <|> Declaration.boundedContext <$> expecting .boundedContext contextDecl
    <|> expecting .declaration decline

end DomainAtlas.Grammar
