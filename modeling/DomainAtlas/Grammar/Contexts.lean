import DomainAtlas.Grammar.Members
/-!
# Bounded contexts, modules and aggregates
-/
set_option autoImplicit false

namespace DomainAtlas.Grammar

open Reader

variable {ι : Type} [Readable ι]

def responsibilities : Reader ι (List String) :=
  property .responsibilities strings

def knowledgeLevel : Reader ι KnowledgeLevel :=
  property .knowledgeLevel (keywordValue .knowledgeLevel KnowledgeLevel.ofKeyword?)

def implementationTechnology : Reader ι String :=
  property .implementationTechnology string

def aggregateItem : Reader ι AggregateItem :=
  AggregateItem.responsibilities <$> responsibilities
    <|> AggregateItem.knowledgeLevel <$> knowledgeLevel
    <|> AggregateItem.entity <$> entityDecl
    <|> AggregateItem.valueObject <$> objectDecl .valueObject
    <|> AggregateItem.domainEvent <$> objectDecl .domainEvent
    <|> AggregateItem.command <$> objectDecl .command
    <|> AggregateItem.service <$> serviceDecl

def aggregateDecl : Reader ι AggregateDecl := do
  keyword .aggregate
  commit do
    let name ← name
    let items ← block aggregateItem
    return { name, items }

def moduleDecl : Reader ι ModuleDecl := do
  keyword .module
  commit do
    let name ← name
    let aggregates ← block aggregateDecl
    return { name, aggregates }

def contextItem : Reader ι ContextItem :=
  ContextItem.visionStatement <$> property .domainVisionStatement string
    <|> ContextItem.responsibilities <$> responsibilities
    <|> ContextItem.implementationTechnology <$> implementationTechnology
    <|> ContextItem.knowledgeLevel <$> knowledgeLevel
    <|> ContextItem.type <$> property .type (keywordValue .contextType ContextType.ofKeyword?)
    <|> ContextItem.aggregate <$> aggregateDecl
    <|> ContextItem.module <$> moduleDecl

def contextDecl : Reader ι ContextDecl := do
  keyword .boundedContext
  commit do
    let name ← name
    let items ← block contextItem
    return { name, items }

end DomainAtlas.Grammar
