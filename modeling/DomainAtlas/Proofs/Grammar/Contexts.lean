import DomainAtlas.Grammar.Contexts
import DomainAtlas.Proofs.Grammar.Members

/-! # Readers of bounded contexts, modules and aggregates

Each reader of `Grammar.Contexts` reads the production of its name. The items of a block start with
keywords of their own, and none of these may follow an item and still belong to it.
-/
set_option autoImplicit false

namespace DomainAtlas

open Grammar

theorem item_responsibilities : Item Grammar.responsibilities Phrase.responsibilities
    (· = .keyword .responsibilities) (· = .symbol .comma) :=
  item_property .responsibilities (Item.toReads item_strings)

theorem item_knowledgeLevel : Item Grammar.knowledgeLevel Phrase.knowledgeLevel
    (· = .keyword .knowledgeLevel) noToken :=
  item_property .knowledgeLevel (item_keywordValue .knowledgeLevel _).toReads

theorem item_implementationTechnology :
    Item Grammar.implementationTechnology Phrase.implementationTechnology
      (· = .keyword .implementationTechnology) noToken :=
  item_property .implementationTechnology (Item.toReads item_string)

/-- The tokens that may prolong an item: a comma in a list, the brace of a body. -/
def prolongsItem (t : Token) : Prop :=
  t = .symbol .comma ∨ t = .symbol .leftBrace

def startsAggregateItem (t : Token) : Prop :=
  t = .keyword .responsibilities ∨ t = .keyword .knowledgeLevel ∨ t = .keyword .entity ∨
    t = .keyword .valueObject ∨ t = .keyword .domainEvent ∨ t = .keyword .command ∨ t = .keyword .service

theorem item_aggregateItem :
    Item Grammar.aggregateItem Phrase.aggregateItem startsAggregateItem prolongsItem := by
  have hService := Item.map item_serviceDecl AggregateItem.service
  have hCommand := ((item_objectDecl .command).map AggregateItem.command).orElse hService (by simp)
  have hEvent := ((item_objectDecl .domainEvent).map AggregateItem.domainEvent).orElse hCommand (by simp)
  have hObject := ((item_objectDecl .valueObject).map AggregateItem.valueObject).orElse hEvent (by simp)
  have hEntity := (Item.map item_entityDecl AggregateItem.entity).orElse hObject (by simp)
  have hLevel := (Item.map item_knowledgeLevel AggregateItem.knowledgeLevel).orElse hEntity (by simp)
  have hAll := (Item.map item_responsibilities AggregateItem.responsibilities).orElse hLevel (by simp)
  apply hAll.mono
  · exact fun _ h => h
  · simp +contextual [prolongsItem, noToken]

theorem reads_aggregateItems :
    Item (Grammar.block Grammar.aggregateItem) (Phrase.block Phrase.aggregateItem)
      (· = .symbol .leftBrace) noToken := by
  apply Item.block item_aggregateItem <;> simp [startsAggregateItem, prolongsItem]

theorem item_aggregateDecl :
    Item Grammar.aggregateDecl Phrase.aggregateDecl (· = .keyword .aggregate) noToken := by
  apply (item_keyword .aggregate).bind
  intro _
  apply Reads.commit
  apply Item.reads_bind item_name
  intro name
  exact reads_aggregateItems.toReads.map _

theorem item_moduleDecl : Item Grammar.moduleDecl Phrase.moduleDecl (· = .keyword .module) noToken := by
  apply (item_keyword .module).bind
  intro _
  apply Reads.commit
  apply Item.reads_bind item_name
  intro name
  have hBlock : Item (Grammar.block Grammar.aggregateDecl) (Phrase.block Phrase.aggregateDecl)
      (· = .symbol .leftBrace) noToken := by
    apply Item.block item_aggregateDecl <;> simp [noToken]
  exact hBlock.toReads.map _

def startsContextItem (t : Token) : Prop :=
  t = .keyword .domainVisionStatement ∨ t = .keyword .responsibilities ∨
    t = .keyword .implementationTechnology ∨ t = .keyword .knowledgeLevel ∨ t = .keyword .type ∨
    t = .keyword .aggregate ∨ t = .keyword .module

theorem item_contextItem :
    Item Grammar.contextItem Phrase.contextItem startsContextItem prolongsItem := by
  have hModule := Item.map item_moduleDecl ContextItem.module
  have hAggregate := (Item.map item_aggregateDecl ContextItem.aggregate).orElse hModule (by simp)
  have hType := ((item_property .type (item_keywordValue .contextType ContextType.ofKeyword?).toReads).map
    ContextItem.type).orElse hAggregate (by simp)
  have hLevel := (Item.map item_knowledgeLevel ContextItem.knowledgeLevel).orElse hType (by simp)
  have hTechnology := (Item.map item_implementationTechnology ContextItem.implementationTechnology).orElse hLevel
    (by simp)
  have hTexts := (Item.map item_responsibilities ContextItem.responsibilities).orElse hTechnology (by simp)
  have hAll := ((item_property .domainVisionStatement (Item.toReads item_string)).map
    ContextItem.visionStatement).orElse hTexts (by simp)
  apply hAll.mono
  · exact fun _ h => h
  · simp +contextual [prolongsItem, noToken]

theorem item_contextDecl :
    Item Grammar.contextDecl Phrase.contextDecl (· = .keyword .boundedContext) noToken := by
  apply (item_keyword .boundedContext).bind
  intro _
  apply Reads.commit
  apply Item.reads_bind item_name
  intro name
  have hBlock : Item (Grammar.block Grammar.contextItem) (Phrase.block Phrase.contextItem)
      (· = .symbol .leftBrace) noToken := by
    apply Item.block item_contextItem <;> simp [startsContextItem, prolongsItem]
  exact hBlock.toReads.map _

end DomainAtlas
