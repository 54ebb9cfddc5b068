import DomainAtlas.Model.OfDeclarations
import DomainAtlas.Proofs.Lists

/-! # Models field by field

Folding a block gives each field from the items that concern it, whatever stands between them: a list
field collects all of them in order, a field with one value keeps the last.
-/
set_option autoImplicit false

namespace DomainAtlas

/-! ## The items that concern a field -/

namespace EntityItem

def isRoot : EntityItem → Bool
  | .root => true
  | _ => false

def attribute? : EntityItem → Option AttributeDecl
  | .attribute decl => some decl
  | _ => none

def operation? : EntityItem → Option OperationDecl
  | .operation decl => some decl
  | _ => none

end EntityItem

namespace AggregateItem

/-- All texts of the item: none, unless it holds responsibilities. -/
def texts : AggregateItem → List String
  | .responsibilities texts => texts
  | _ => []

def level? : AggregateItem → Option KnowledgeLevel
  | .knowledgeLevel level => some level
  | _ => none

def entity? : AggregateItem → Option EntityDecl
  | .entity decl => some decl
  | _ => none

def valueObject? : AggregateItem → Option ObjectDecl
  | .valueObject decl => some decl
  | _ => none

def domainEvent? : AggregateItem → Option ObjectDecl
  | .domainEvent decl => some decl
  | _ => none

def command? : AggregateItem → Option ObjectDecl
  | .command decl => some decl
  | _ => none

def service? : AggregateItem → Option ServiceDecl
  | .service decl => some decl
  | _ => none

end AggregateItem

namespace ContextItem

def vision? : ContextItem → Option String
  | .visionStatement text => some text
  | _ => none

def texts : ContextItem → List String
  | .responsibilities texts => texts
  | _ => []

def technology? : ContextItem → Option String
  | .implementationTechnology text => some text
  | _ => none

def level? : ContextItem → Option KnowledgeLevel
  | .knowledgeLevel level => some level
  | _ => none

def type? : ContextItem → Option ContextType
  | .type value => some value
  | _ => none

def aggregate? : ContextItem → Option AggregateDecl
  | .aggregate decl => some decl
  | _ => none

def module? : ContextItem → Option ModuleDecl
  | .module decl => some decl
  | _ => none

end ContextItem

namespace RelationshipItem

def names : RelationshipItem → List String
  | .exposedAggregates names => names
  | _ => []

def technology? : RelationshipItem → Option String
  | .implementationTechnology text => some text
  | _ => none

end RelationshipItem

namespace MapItem

def type? : MapItem → Option String
  | .type word => some word
  | _ => none

def state? : MapItem → Option MapState
  | .state value => some value
  | _ => none

def names : MapItem → List String
  | .contains names => names
  | _ => []

def relationship? : MapItem → Option RelationshipDecl
  | .relationship decl => some decl
  | _ => none

end MapItem

namespace Declaration

def map? : Declaration → Option MapDecl
  | .contextMap decl => some decl
  | _ => none

def context? : Declaration → Option ContextDecl
  | .boundedContext decl => some decl
  | _ => none

end Declaration

/-! ## Blocks -/

def ParameterDecl.toParameter (decl : ParameterDecl) : Parameter :=
  ⟨decl.name, decl.type.text⟩

theorem OperationDecl.toOperation_eq (decl : OperationDecl) :
    decl.toOperation =
      { name := decl.name
        returnType := decl.returnType.map TypeRef.text
        parameters := decl.parameters.map ParameterDecl.toParameter } := rfl

/-- The value of the last item that sets one. -/
def lastValue {α β : Type} (value? : α → Option β) (items : List α) : Option β :=
  (items.filterMap value?).getLast?

theorem lastValue_cons {α β : Type} (value? : α → Option β) (item : α) (items : List α) :
    lastValue value? (item :: items) = (lastValue value? items).or (value? item) := by
  unfold lastValue
  cases hValue : value? item with
  | none => rw [List.filterMap_cons_none hValue, Option.or_none]
  | some value => rw [List.filterMap_cons_some hValue, List.getLast?_cons, Option.or_some]

theorem lastValue_append {α β : Type} (value? : α → Option β) (front back : List α) :
    lastValue value? (front ++ back) = (lastValue value? back).or (lastValue value? front) := by
  rw [lastValue, List.filterMap_append, List.getLast?_append, lastValue, lastValue]

theorem lastValue_map {α β γ : Type} (value? : α → Option γ) (wrap : β → α) (values : List β) :
    lastValue value? (values.map wrap) = lastValue (fun value => value? (wrap value)) values := by
  rw [lastValue, List.filterMap_map, lastValue]
  rfl

theorem lastValue_toList {β : Type} (value? : Option β) : lastValue some value?.toList = value? := by
  cases value? <;> rfl

theorem lastValue_none {β γ : Type} (values : List β) : lastValue (fun _ => (none : Option γ)) values = none := by
  rw [lastValue, List.filterMap_eq_nil_iff.mpr fun _ _ => rfl, List.getLast?_nil]

theorem Entity.foldl_add (items : List EntityItem) (entity : Entity) :
    items.foldl Entity.add entity =
      { entity with
        isRoot := entity.isRoot || items.any EntityItem.isRoot
        attributes := entity.attributes ++ (items.filterMap EntityItem.attribute?).map AttributeDecl.toAttribute
        operations := entity.operations ++
          (items.filterMap EntityItem.operation?).map OperationDecl.toOperation } := by
  induction items generalizing entity with
  | nil => simp
  | cons item items ih =>
    rw [List.foldl_cons, ih]
    cases item <;>
      simp [Entity.add, List.filterMap_cons, EntityItem.isRoot, EntityItem.attribute?, EntityItem.operation?]

theorem EntityDecl.toEntity_eq (decl : EntityDecl) :
    decl.toEntity =
      { name := decl.name
        isRoot := decl.items.any EntityItem.isRoot
        attributes := (decl.items.filterMap EntityItem.attribute?).map AttributeDecl.toAttribute
        operations := (decl.items.filterMap EntityItem.operation?).map OperationDecl.toOperation } := by
  rw [EntityDecl.toEntity, Entity.foldl_add]
  simp

theorem Aggregate.foldl_add (items : List AggregateItem) (aggregate : Aggregate) :
    items.foldl Aggregate.add aggregate =
      { aggregate with
        responsibilities := aggregate.responsibilities ++ items.flatMap AggregateItem.texts
        knowledgeLevel := (lastValue AggregateItem.level? items).or aggregate.knowledgeLevel
        entities := aggregate.entities ++ (items.filterMap AggregateItem.entity?).map EntityDecl.toEntity
        valueObjects :=
          aggregate.valueObjects ++ (items.filterMap AggregateItem.valueObject?).map ObjectDecl.toObject
        domainEvents :=
          aggregate.domainEvents ++ (items.filterMap AggregateItem.domainEvent?).map ObjectDecl.toObject
        commands := aggregate.commands ++ (items.filterMap AggregateItem.command?).map ObjectDecl.toObject
        services := aggregate.services ++ (items.filterMap AggregateItem.service?).map ServiceDecl.toService } := by
  induction items generalizing aggregate with
  | nil => simp [lastValue]
  | cons item items ih =>
    rw [List.foldl_cons, ih, lastValue_cons]
    cases item <;>
      simp [Aggregate.add, List.filterMap_cons, AggregateItem.texts, AggregateItem.level?, AggregateItem.entity?,
        AggregateItem.valueObject?, AggregateItem.domainEvent?, AggregateItem.command?, AggregateItem.service?]

theorem AggregateDecl.toAggregate_eq (decl : AggregateDecl) :
    decl.toAggregate =
      { name := decl.name
        responsibilities := decl.items.flatMap AggregateItem.texts
        knowledgeLevel := lastValue AggregateItem.level? decl.items
        entities := (decl.items.filterMap AggregateItem.entity?).map EntityDecl.toEntity
        valueObjects := (decl.items.filterMap AggregateItem.valueObject?).map ObjectDecl.toObject
        domainEvents := (decl.items.filterMap AggregateItem.domainEvent?).map ObjectDecl.toObject
        commands := (decl.items.filterMap AggregateItem.command?).map ObjectDecl.toObject
        services := (decl.items.filterMap AggregateItem.service?).map ServiceDecl.toService } := by
  rw [AggregateDecl.toAggregate, Aggregate.foldl_add]
  simp

theorem BoundedContext.foldl_add (items : List ContextItem) (context : BoundedContext) :
    items.foldl BoundedContext.add context =
      { context with
        visionStatement := (lastValue ContextItem.vision? items).or context.visionStatement
        responsibilities := context.responsibilities ++ items.flatMap ContextItem.texts
        implementationTechnology := (lastValue ContextItem.technology? items).or context.implementationTechnology
        knowledgeLevel := (lastValue ContextItem.level? items).or context.knowledgeLevel
        contextType := (lastValue ContextItem.type? items).or context.contextType
        aggregates := context.aggregates ++ (items.filterMap ContextItem.aggregate?).map AggregateDecl.toAggregate
        modules := context.modules ++ (items.filterMap ContextItem.module?).map ModuleDecl.toModule } := by
  induction items generalizing context with
  | nil => simp [lastValue]
  | cons item items ih =>
    rw [List.foldl_cons, ih]
    simp only [lastValue_cons]
    cases item <;>
      simp [BoundedContext.add, List.filterMap_cons, ContextItem.vision?, ContextItem.texts, ContextItem.technology?,
        ContextItem.level?, ContextItem.type?, ContextItem.aggregate?, ContextItem.module?]

theorem ContextDecl.toContext_eq (decl : ContextDecl) :
    decl.toContext =
      { name := decl.name
        visionStatement := lastValue ContextItem.vision? decl.items
        responsibilities := decl.items.flatMap ContextItem.texts
        implementationTechnology := lastValue ContextItem.technology? decl.items
        knowledgeLevel := lastValue ContextItem.level? decl.items
        contextType := lastValue ContextItem.type? decl.items
        aggregates := (decl.items.filterMap ContextItem.aggregate?).map AggregateDecl.toAggregate
        modules := (decl.items.filterMap ContextItem.module?).map ModuleDecl.toModule } := by
  rw [ContextDecl.toContext, BoundedContext.foldl_add]
  simp

/-! ## Relationships -/

namespace DirectedRelationship

theorem foldl_addUpstreamPattern (patterns : List UpstreamPattern) (relationship : DirectedRelationship) :
    patterns.foldl addUpstreamPattern relationship =
      { relationship with upstreamPatterns := patterns.foldl insertNew relationship.upstreamPatterns } := by
  induction patterns generalizing relationship with
  | nil => rfl
  | cons pattern patterns ih =>
    rw [List.foldl_cons, ih, List.foldl_cons, addUpstreamPattern, insertNew]
    split <;> rfl

theorem foldl_addDownstreamPattern (patterns : List DownstreamPattern) (relationship : DirectedRelationship) :
    patterns.foldl addDownstreamPattern relationship =
      { relationship with downstreamPatterns := patterns.foldl insertNew relationship.downstreamPatterns } := by
  induction patterns generalizing relationship with
  | nil => rfl
  | cons pattern patterns ih =>
    rw [List.foldl_cons, ih, List.foldl_cons, addDownstreamPattern, insertNew]
    split <;> rfl

theorem addPatterns_eq (relationship : DirectedRelationship) (upstream : List UpstreamPattern)
    (downstream : List DownstreamPattern) :
    relationship.addPatterns upstream downstream =
      { relationship with
        upstreamPatterns := upstream.foldl insertNew relationship.upstreamPatterns
        downstreamPatterns := downstream.foldl insertNew relationship.downstreamPatterns } := by
  rw [addPatterns, foldl_addUpstreamPattern, foldl_addDownstreamPattern]

theorem foldl_add (items : List RelationshipItem) (relationship : DirectedRelationship) :
    items.foldl add relationship =
      { relationship with
        exposedAggregates := relationship.exposedAggregates ++ items.flatMap RelationshipItem.names
        implementationTechnology :=
          (lastValue RelationshipItem.technology? items).or relationship.implementationTechnology } := by
  induction items generalizing relationship with
  | nil => simp [lastValue]
  | cons item items ih =>
    rw [List.foldl_cons, ih, lastValue_cons]
    cases item <;> simp [add, RelationshipItem.names, RelationshipItem.technology?]

end DirectedRelationship

theorem RelationshipDecl.toRelationship_directed (upstream downstream : String)
    (upstreamPatterns : List UpstreamPattern) (downstreamPatterns : List DownstreamPattern)
    (body : List RelationshipItem) :
    (directed upstream downstream upstreamPatterns downstreamPatterns body).toRelationship =
      .directed
        { upstream
          downstream
          upstreamPatterns := upstreamPatterns.eraseDups
          downstreamPatterns := downstreamPatterns.eraseDups
          exposedAggregates := body.flatMap RelationshipItem.names
          implementationTechnology := lastValue RelationshipItem.technology? body } := by
  rw [toRelationship, DirectedRelationship.foldl_add, DirectedRelationship.addPatterns_eq]
  simp [foldl_insertNew_nil]

/-! ## Maps and models -/

theorem ContextMap.foldl_add (items : List MapItem) (map : ContextMap) :
    items.foldl ContextMap.add map =
      { map with
        mapType := (lastValue MapItem.type? items).or map.mapType
        state := (lastValue MapItem.state? items).getD map.state
        contains := map.contains ++ items.flatMap MapItem.names
        relationships :=
          map.relationships ++ (items.filterMap MapItem.relationship?).map RelationshipDecl.toRelationship } := by
  induction items generalizing map with
  | nil => simp [lastValue]
  | cons item items ih =>
    rw [List.foldl_cons, ih]
    simp only [lastValue_cons]
    cases item <;>
      simp [ContextMap.add, List.filterMap_cons, MapItem.type?, MapItem.state?, MapItem.names,
        MapItem.relationship?]

theorem MapDecl.toMap_eq (decl : MapDecl) :
    decl.toMap =
      { name := decl.name
        mapType := lastValue MapItem.type? decl.items
        state := (lastValue MapItem.state? decl.items).getD .asIs
        contains := decl.items.flatMap MapItem.names
        relationships := (decl.items.filterMap MapItem.relationship?).map RelationshipDecl.toRelationship } := by
  rw [MapDecl.toMap, ContextMap.foldl_add]
  simp

theorem Model.foldl_add (declarations : List Declaration) (model : Model) :
    declarations.foldl Model.add model =
      { model with
        contextMap := ((lastValue Declaration.map? declarations).map MapDecl.toMap).or model.contextMap
        boundedContexts :=
          model.boundedContexts ++ (declarations.filterMap Declaration.context?).map ContextDecl.toContext } := by
  induction declarations generalizing model with
  | nil => simp [lastValue]
  | cons declaration declarations ih =>
    rw [List.foldl_cons, ih, lastValue_cons]
    cases declaration <;>
      simp [Model.add, List.filterMap_cons, Declaration.map?, Declaration.context?]

theorem Model.ofDeclarations_eq (declarations : List Declaration) :
    Model.ofDeclarations declarations =
      { contextMap := (lastValue Declaration.map? declarations).map MapDecl.toMap
        boundedContexts := (declarations.filterMap Declaration.context?).map ContextDecl.toContext } := by
  rw [Model.ofDeclarations, Model.foldl_add]
  simp

end DomainAtlas
