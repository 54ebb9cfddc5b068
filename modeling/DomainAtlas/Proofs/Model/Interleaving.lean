import DomainAtlas.Proofs.Model.Fields
import Mathlib.Data.List.Forall2
import Mathlib.Logic.Relation

/-! # Documents whose items interleave

A model is described field by field: each field names the items that it comes from, and no field asks what stands
between them. Every document describes exactly one model in this way. Items of different kinds may therefore change
places, in any block and at any depth, without a change to the model.
-/
set_option autoImplicit false

namespace DomainAtlas

/-! ## Descriptions -/

structure AttributeDecl.Describes (decl : AttributeDecl) (member : Attribute) : Prop where
  name : member.name = decl.name
  type : member.type = decl.type.text
  key : member.key = decl.key
  nullable : member.nullable = decl.nullable

structure ParameterDecl.Describes (decl : ParameterDecl) (parameter : Parameter) : Prop where
  name : parameter.name = decl.name
  type : parameter.type = decl.type.text

structure OperationDecl.Describes (decl : OperationDecl) (member : Operation) : Prop where
  name : member.name = decl.name
  returnType : member.returnType = decl.returnType.map TypeRef.text
  parameters : List.Forall₂ ParameterDecl.Describes decl.parameters member.parameters

structure EntityDecl.Describes (decl : EntityDecl) (entity : Entity) : Prop where
  name : entity.name = decl.name
  isRoot : entity.isRoot = true ↔ .root ∈ decl.items
  attributes : List.Forall₂ AttributeDecl.Describes (decl.items.filterMap EntityItem.attribute?) entity.attributes
  operations : List.Forall₂ OperationDecl.Describes (decl.items.filterMap EntityItem.operation?) entity.operations

structure ObjectDecl.Describes (decl : ObjectDecl) (object : DomainObject) : Prop where
  name : object.name = decl.name
  attributes : List.Forall₂ AttributeDecl.Describes decl.attributes object.attributes

structure ServiceDecl.Describes (decl : ServiceDecl) (service : Service) : Prop where
  name : service.name = decl.name
  operations : List.Forall₂ OperationDecl.Describes decl.operations service.operations

structure AggregateDecl.Describes (decl : AggregateDecl) (aggregate : Aggregate) : Prop where
  name : aggregate.name = decl.name
  responsibilities : aggregate.responsibilities = decl.items.flatMap AggregateItem.texts
  knowledgeLevel : aggregate.knowledgeLevel = lastValue AggregateItem.level? decl.items
  entities : List.Forall₂ EntityDecl.Describes (decl.items.filterMap AggregateItem.entity?) aggregate.entities
  valueObjects :
    List.Forall₂ ObjectDecl.Describes (decl.items.filterMap AggregateItem.valueObject?) aggregate.valueObjects
  domainEvents :
    List.Forall₂ ObjectDecl.Describes (decl.items.filterMap AggregateItem.domainEvent?) aggregate.domainEvents
  commands : List.Forall₂ ObjectDecl.Describes (decl.items.filterMap AggregateItem.command?) aggregate.commands
  services : List.Forall₂ ServiceDecl.Describes (decl.items.filterMap AggregateItem.service?) aggregate.services

structure ModuleDecl.Describes (decl : ModuleDecl) (module : Module) : Prop where
  name : module.name = decl.name
  aggregates : List.Forall₂ AggregateDecl.Describes decl.aggregates module.aggregates

structure ContextDecl.Describes (decl : ContextDecl) (context : BoundedContext) : Prop where
  name : context.name = decl.name
  visionStatement : context.visionStatement = lastValue ContextItem.vision? decl.items
  responsibilities : context.responsibilities = decl.items.flatMap ContextItem.texts
  implementationTechnology : context.implementationTechnology = lastValue ContextItem.technology? decl.items
  knowledgeLevel : context.knowledgeLevel = lastValue ContextItem.level? decl.items
  contextType : context.contextType = lastValue ContextItem.type? decl.items
  aggregates :
    List.Forall₂ AggregateDecl.Describes (decl.items.filterMap ContextItem.aggregate?) context.aggregates
  modules : List.Forall₂ ModuleDecl.Describes (decl.items.filterMap ContextItem.module?) context.modules

/-- The patterns of a relationship are their first occurrences in the declaration. -/
inductive RelationshipDecl.Describes : RelationshipDecl → Relationship → Prop
  | symmetric (kind : SymmetricKind) (left right : String) :
      Describes (.symmetric kind left right) (.symmetric kind left right)
  | directed {upstream downstream : String} {upstreamPatterns : List UpstreamPattern}
      {downstreamPatterns : List DownstreamPattern} {body : List RelationshipItem}
      {relationship : DirectedRelationship} (hUpstream : relationship.upstream = upstream)
      (hDownstream : relationship.downstream = downstream)
      (hUpstreamPatterns : relationship.upstreamPatterns = upstreamPatterns.eraseDups)
      (hDownstreamPatterns : relationship.downstreamPatterns = downstreamPatterns.eraseDups)
      (hExposed : relationship.exposedAggregates = body.flatMap RelationshipItem.names)
      (hTechnology : relationship.implementationTechnology = lastValue RelationshipItem.technology? body) :
      Describes (.directed upstream downstream upstreamPatterns downstreamPatterns body) (.directed relationship)

structure MapDecl.Describes (decl : MapDecl) (map : ContextMap) : Prop where
  name : map.name = decl.name
  mapType : map.mapType = lastValue MapItem.type? decl.items
  state : map.state = (lastValue MapItem.state? decl.items).getD .asIs
  contains : map.contains = decl.items.flatMap MapItem.names
  relationships :
    List.Forall₂ RelationshipDecl.Describes (decl.items.filterMap MapItem.relationship?) map.relationships

/-- The document consists of these declarations; a model has no name that could be written. -/
structure Model.DescribedBy (model : Model) (declarations : List Declaration) : Prop where
  name : model.name = ""
  contextMap : Option.Rel MapDecl.Describes (lastValue Declaration.map? declarations) model.contextMap
  boundedContexts :
    List.Forall₂ ContextDecl.Describes (declarations.filterMap Declaration.context?) model.boundedContexts

/-! ## One description, one model -/

section Lists

variable {α β : Type} {Describes : α → β → Prop} {build : α → β}

theorem forall₂_iff_map_eq (h : ∀ decl value, Describes decl value ↔ build decl = value) {decls : List α}
    {values : List β} : List.Forall₂ Describes decls values ↔ decls.map build = values := by
  obtain rfl : Describes = fun decl value => build decl = value := by
    funext decl value
    exact propext (h decl value)
  rw [← List.forall₂_map_left_iff, List.forall₂_eq_eq_eq]

theorem optionRel_iff_map_eq (h : ∀ decl value, Describes decl value ↔ build decl = value) {decl? : Option α}
    {value? : Option β} : Option.Rel Describes decl? value? ↔ decl?.map build = value? := by
  constructor
  · intro hRel
    cases hRel with
    | none => rfl
    | some hDescribes => rw [Option.map_some, (h _ _).mp hDescribes]
  · rintro rfl
    cases decl? with
    | none => exact .none
    | some decl => exact .some ((h _ _).mpr rfl)

end Lists

theorem AttributeDecl.describes_iff (decl : AttributeDecl) (member : Attribute) :
    decl.Describes member ↔ decl.toAttribute = member := by
  constructor
  · rintro ⟨hName, hType, hKey, hNullable⟩
    rw [toAttribute, ← hName, ← hType, ← hKey, ← hNullable]
  · rintro rfl
    exact ⟨rfl, rfl, rfl, rfl⟩

theorem ParameterDecl.describes_iff (decl : ParameterDecl) (parameter : Parameter) :
    decl.Describes parameter ↔ decl.toParameter = parameter := by
  constructor
  · rintro ⟨hName, hType⟩
    rw [toParameter, ← hName, ← hType]
  · rintro rfl
    exact ⟨rfl, rfl⟩

theorem OperationDecl.describes_iff (decl : OperationDecl) (member : Operation) :
    decl.Describes member ↔ decl.toOperation = member := by
  rw [OperationDecl.toOperation_eq]
  constructor
  · rintro ⟨hName, hType, hParameters⟩
    rw [← hName, ← hType, (forall₂_iff_map_eq ParameterDecl.describes_iff).mp hParameters]
  · rintro rfl
    exact ⟨rfl, rfl, (forall₂_iff_map_eq ParameterDecl.describes_iff).mpr rfl⟩

theorem EntityItem.any_isRoot_iff (items : List EntityItem) : items.any EntityItem.isRoot = true ↔ .root ∈ items := by
  rw [List.any_eq_true]
  constructor
  · rintro ⟨item, hMem, hRoot⟩
    cases item with
    | root => exact hMem
    | _ => cases hRoot
  · exact fun hMem => ⟨.root, hMem, rfl⟩

theorem EntityDecl.describes_iff (decl : EntityDecl) (entity : Entity) :
    decl.Describes entity ↔ decl.toEntity = entity := by
  rw [EntityDecl.toEntity_eq]
  constructor
  · rintro ⟨hName, hRoot, hAttributes, hOperations⟩
    rw [← EntityItem.any_isRoot_iff, ← Bool.eq_iff_iff] at hRoot
    rw [← hName, ← hRoot, (forall₂_iff_map_eq AttributeDecl.describes_iff).mp hAttributes,
      (forall₂_iff_map_eq OperationDecl.describes_iff).mp hOperations]
  · rintro rfl
    exact ⟨rfl, EntityItem.any_isRoot_iff _, (forall₂_iff_map_eq AttributeDecl.describes_iff).mpr rfl,
      (forall₂_iff_map_eq OperationDecl.describes_iff).mpr rfl⟩

theorem ObjectDecl.describes_iff (decl : ObjectDecl) (object : DomainObject) :
    decl.Describes object ↔ decl.toObject = object := by
  constructor
  · rintro ⟨hName, hAttributes⟩
    rw [toObject, ← hName, (forall₂_iff_map_eq AttributeDecl.describes_iff).mp hAttributes]
  · rintro rfl
    exact ⟨rfl, (forall₂_iff_map_eq AttributeDecl.describes_iff).mpr rfl⟩

theorem ServiceDecl.describes_iff (decl : ServiceDecl) (service : Service) :
    decl.Describes service ↔ decl.toService = service := by
  constructor
  · rintro ⟨hName, hOperations⟩
    rw [toService, ← hName, (forall₂_iff_map_eq OperationDecl.describes_iff).mp hOperations]
  · rintro rfl
    exact ⟨rfl, (forall₂_iff_map_eq OperationDecl.describes_iff).mpr rfl⟩

theorem AggregateDecl.describes_iff (decl : AggregateDecl) (aggregate : Aggregate) :
    decl.Describes aggregate ↔ decl.toAggregate = aggregate := by
  rw [AggregateDecl.toAggregate_eq]
  constructor
  · rintro ⟨hName, hTexts, hLevel, hEntities, hValueObjects, hDomainEvents, hCommands, hServices⟩
    rw [← hName, ← hTexts, ← hLevel, (forall₂_iff_map_eq EntityDecl.describes_iff).mp hEntities,
      (forall₂_iff_map_eq ObjectDecl.describes_iff).mp hValueObjects,
      (forall₂_iff_map_eq ObjectDecl.describes_iff).mp hDomainEvents,
      (forall₂_iff_map_eq ObjectDecl.describes_iff).mp hCommands,
      (forall₂_iff_map_eq ServiceDecl.describes_iff).mp hServices]
  · rintro rfl
    exact ⟨rfl, rfl, rfl, (forall₂_iff_map_eq EntityDecl.describes_iff).mpr rfl,
      (forall₂_iff_map_eq ObjectDecl.describes_iff).mpr rfl, (forall₂_iff_map_eq ObjectDecl.describes_iff).mpr rfl,
      (forall₂_iff_map_eq ObjectDecl.describes_iff).mpr rfl, (forall₂_iff_map_eq ServiceDecl.describes_iff).mpr rfl⟩

theorem ModuleDecl.describes_iff (decl : ModuleDecl) (module : Module) :
    decl.Describes module ↔ decl.toModule = module := by
  constructor
  · rintro ⟨hName, hAggregates⟩
    rw [toModule, ← hName, (forall₂_iff_map_eq AggregateDecl.describes_iff).mp hAggregates]
  · rintro rfl
    exact ⟨rfl, (forall₂_iff_map_eq AggregateDecl.describes_iff).mpr rfl⟩

theorem ContextDecl.describes_iff (decl : ContextDecl) (context : BoundedContext) :
    decl.Describes context ↔ decl.toContext = context := by
  rw [ContextDecl.toContext_eq]
  constructor
  · rintro ⟨hName, hVision, hTexts, hTechnology, hLevel, hType, hAggregates, hModules⟩
    rw [← hName, ← hVision, ← hTexts, ← hTechnology, ← hLevel, ← hType,
      (forall₂_iff_map_eq AggregateDecl.describes_iff).mp hAggregates,
      (forall₂_iff_map_eq ModuleDecl.describes_iff).mp hModules]
  · rintro rfl
    exact ⟨rfl, rfl, rfl, rfl, rfl, rfl, (forall₂_iff_map_eq AggregateDecl.describes_iff).mpr rfl,
      (forall₂_iff_map_eq ModuleDecl.describes_iff).mpr rfl⟩

theorem RelationshipDecl.describes_iff (decl : RelationshipDecl) (relationship : Relationship) :
    decl.Describes relationship ↔ decl.toRelationship = relationship := by
  constructor
  · intro h
    cases h with
    | symmetric kind left right => rfl
    | directed hUpstream hDownstream hUpstreamPatterns hDownstreamPatterns hExposed hTechnology =>
      rw [toRelationship_directed, ← hUpstream, ← hDownstream, ← hUpstreamPatterns, ← hDownstreamPatterns,
        ← hExposed, ← hTechnology]
  · rintro rfl
    cases decl with
    | symmetric kind left right => exact .symmetric kind left right
    | directed upstream downstream upstreamPatterns downstreamPatterns body =>
      rw [toRelationship_directed]
      exact .directed rfl rfl rfl rfl rfl rfl

theorem MapDecl.describes_iff (decl : MapDecl) (map : ContextMap) : decl.Describes map ↔ decl.toMap = map := by
  rw [MapDecl.toMap_eq]
  constructor
  · rintro ⟨hName, hType, hState, hContains, hRelationships⟩
    rw [← hName, ← hType, ← hState, ← hContains,
      (forall₂_iff_map_eq RelationshipDecl.describes_iff).mp hRelationships]
  · rintro rfl
    exact ⟨rfl, rfl, rfl, rfl, (forall₂_iff_map_eq RelationshipDecl.describes_iff).mpr rfl⟩

theorem Model.describedBy_iff (model : Model) (declarations : List Declaration) :
    model.DescribedBy declarations ↔ Model.ofDeclarations declarations = model := by
  rw [Model.ofDeclarations_eq]
  constructor
  · rintro ⟨hName, hMap, hContexts⟩
    rw [(optionRel_iff_map_eq MapDecl.describes_iff).mp hMap,
      (forall₂_iff_map_eq ContextDecl.describes_iff).mp hContexts, ← hName]
  · rintro rfl
    exact ⟨rfl, (optionRel_iff_map_eq MapDecl.describes_iff).mpr rfl,
      (forall₂_iff_map_eq ContextDecl.describes_iff).mpr rfl⟩

/-! ## Items that change places -/

/-- Two neighbours of different kinds have changed places, or one item has been changed inside. -/
inductive SwapsIn {α : Type} (kind : α → Nat) (Inside : α → α → Prop) : List α → List α → Prop
  | neighbours (front : List α) {first second : α} (back : List α) (h : kind first ≠ kind second) :
      SwapsIn kind Inside (front ++ first :: second :: back) (front ++ second :: first :: back)
  | inside (front : List α) {item changed : α} (back : List α) (h : Inside item changed) :
      SwapsIn kind Inside (front ++ item :: back) (front ++ changed :: back)

/-- Nothing inside the items of an entity can change places. -/
inductive EntityDecl.Swaps : EntityDecl → EntityDecl → Prop
  | items {name : String} {items others : List EntityItem}
      (h : SwapsIn EntityItem.ctorIdx (fun _ _ => False) items others) :
      Swaps ⟨name, items⟩ ⟨name, others⟩

inductive AggregateItem.Swaps : AggregateItem → AggregateItem → Prop
  | entity {decl other : EntityDecl} (h : decl.Swaps other) : Swaps (.entity decl) (.entity other)

inductive AggregateDecl.Swaps : AggregateDecl → AggregateDecl → Prop
  | items {name : String} {items others : List AggregateItem}
      (h : SwapsIn AggregateItem.ctorIdx AggregateItem.Swaps items others) :
      Swaps ⟨name, items⟩ ⟨name, others⟩

/-- The aggregates of a module are all of one kind. -/
inductive ModuleDecl.Swaps : ModuleDecl → ModuleDecl → Prop
  | aggregates {name : String} {decls others : List AggregateDecl}
      (h : SwapsIn (fun _ => 0) AggregateDecl.Swaps decls others) : Swaps ⟨name, decls⟩ ⟨name, others⟩

inductive ContextItem.Swaps : ContextItem → ContextItem → Prop
  | aggregate {decl other : AggregateDecl} (h : decl.Swaps other) : Swaps (.aggregate decl) (.aggregate other)
  | module {decl other : ModuleDecl} (h : decl.Swaps other) : Swaps (.module decl) (.module other)

inductive ContextDecl.Swaps : ContextDecl → ContextDecl → Prop
  | items {name : String} {items others : List ContextItem}
      (h : SwapsIn ContextItem.ctorIdx ContextItem.Swaps items others) : Swaps ⟨name, items⟩ ⟨name, others⟩

inductive MapItem.Swaps : MapItem → MapItem → Prop
  | body {upstream downstream : String} {upstreamPatterns : List UpstreamPattern}
      {downstreamPatterns : List DownstreamPattern} {body other : List RelationshipItem}
      (h : SwapsIn RelationshipItem.ctorIdx (fun _ _ => False) body other) :
      Swaps (.relationship (.directed upstream downstream upstreamPatterns downstreamPatterns body))
        (.relationship (.directed upstream downstream upstreamPatterns downstreamPatterns other))

inductive MapDecl.Swaps : MapDecl → MapDecl → Prop
  | items {name : Option String} {items others : List MapItem}
      (h : SwapsIn MapItem.ctorIdx MapItem.Swaps items others) : Swaps ⟨name, items⟩ ⟨name, others⟩

inductive Declaration.Swaps : Declaration → Declaration → Prop
  | contextMap {decl other : MapDecl} (h : decl.Swaps other) : Swaps (.contextMap decl) (.contextMap other)
  | boundedContext {decl other : ContextDecl} (h : decl.Swaps other) :
      Swaps (.boundedContext decl) (.boundedContext other)

/-- Documents that differ by any number of such changes, anywhere in them. -/
def Reordered : List Declaration → List Declaration → Prop :=
  Relation.EqvGen (SwapsIn Declaration.ctorIdx Declaration.Swaps)

/-! ## The model does not change -/

theorem SwapsIn.foldl_eq {α β : Type} {kind : α → Nat} {Inside : α → α → Prop} {items others : List α}
    (h : SwapsIn kind Inside items others) {add : β → α → β}
    (hComm : ∀ block first second, kind first ≠ kind second →
      add (add block first) second = add (add block second) first)
    (hInside : ∀ block item changed, Inside item changed → add block item = add block changed) (block : β) :
    items.foldl add block = others.foldl add block := by
  cases h with
  | neighbours front back h =>
    rw [List.foldl_append, List.foldl_append, List.foldl_cons, List.foldl_cons, List.foldl_cons, List.foldl_cons,
      hComm _ _ _ h]
  | inside front back h =>
    rw [List.foldl_append, List.foldl_append, List.foldl_cons, List.foldl_cons, hInside _ _ _ h]

theorem Entity.add_comm (entity : Entity) (first second : EntityItem) (h : first.ctorIdx ≠ second.ctorIdx) :
    (entity.add first).add second = (entity.add second).add first := by
  cases first <;> cases second <;> first | rfl | exact absurd rfl h

theorem Aggregate.add_comm (aggregate : Aggregate) (first second : AggregateItem)
    (h : first.ctorIdx ≠ second.ctorIdx) :
    (aggregate.add first).add second = (aggregate.add second).add first := by
  cases first <;> cases second <;> first | rfl | exact absurd rfl h

theorem BoundedContext.add_comm (context : BoundedContext) (first second : ContextItem)
    (h : first.ctorIdx ≠ second.ctorIdx) :
    (context.add first).add second = (context.add second).add first := by
  cases first <;> cases second <;> first | rfl | exact absurd rfl h

theorem DirectedRelationship.add_comm (relationship : DirectedRelationship) (first second : RelationshipItem)
    (h : first.ctorIdx ≠ second.ctorIdx) :
    (relationship.add first).add second = (relationship.add second).add first := by
  cases first <;> cases second <;> first | rfl | exact absurd rfl h

theorem ContextMap.add_comm (map : ContextMap) (first second : MapItem) (h : first.ctorIdx ≠ second.ctorIdx) :
    (map.add first).add second = (map.add second).add first := by
  cases first <;> cases second <;> first | rfl | exact absurd rfl h

theorem Model.add_comm (model : Model) (first second : Declaration) (h : first.ctorIdx ≠ second.ctorIdx) :
    (model.add first).add second = (model.add second).add first := by
  cases first <;> cases second <;> first | rfl | exact absurd rfl h

theorem EntityDecl.Swaps.toEntity_eq {decl other : EntityDecl} (h : decl.Swaps other) :
    decl.toEntity = other.toEntity := by
  cases h with
  | items h => exact h.foldl_eq Entity.add_comm (fun _ _ _ hNothing => hNothing.elim) _

theorem AggregateDecl.Swaps.toAggregate_eq {decl other : AggregateDecl} (h : decl.Swaps other) :
    decl.toAggregate = other.toAggregate := by
  cases h with
  | items h =>
    refine h.foldl_eq Aggregate.add_comm (fun aggregate item changed hInside => ?_) _
    cases hInside with
    | entity hEntity => rw [Aggregate.add, Aggregate.add, hEntity.toEntity_eq]

theorem ModuleDecl.Swaps.toModule_eq {decl other : ModuleDecl} (h : decl.Swaps other) :
    decl.toModule = other.toModule := by
  cases h with
  | aggregates h =>
    cases h with
    | neighbours front back h => exact absurd rfl h
    | inside front back h =>
      rw [toModule, toModule, List.map_append, List.map_append, List.map_cons, List.map_cons, h.toAggregate_eq]

theorem ContextDecl.Swaps.toContext_eq {decl other : ContextDecl} (h : decl.Swaps other) :
    decl.toContext = other.toContext := by
  cases h with
  | items h =>
    refine h.foldl_eq BoundedContext.add_comm (fun context item changed hInside => ?_) _
    cases hInside with
    | aggregate hAggregate => rw [BoundedContext.add, BoundedContext.add, hAggregate.toAggregate_eq]
    | module hModule => rw [BoundedContext.add, BoundedContext.add, hModule.toModule_eq]

theorem MapDecl.Swaps.toMap_eq {decl other : MapDecl} (h : decl.Swaps other) : decl.toMap = other.toMap := by
  cases h with
  | items h =>
    refine h.foldl_eq ContextMap.add_comm (fun map item changed hInside => ?_) _
    cases hInside with
    | body hBody =>
      have hSame := hBody.foldl_eq DirectedRelationship.add_comm (fun _ _ _ hNothing => hNothing.elim)
      rw [ContextMap.add, ContextMap.add, RelationshipDecl.toRelationship, RelationshipDecl.toRelationship, hSame]

theorem Model.ofDeclarations_eq_of_swaps {declarations others : List Declaration}
    (h : SwapsIn Declaration.ctorIdx Declaration.Swaps declarations others) :
    Model.ofDeclarations declarations = Model.ofDeclarations others := by
  refine h.foldl_eq Model.add_comm (fun model item changed hInside => ?_) _
  cases hInside with
  | contextMap hMap => rw [Model.add, Model.add, hMap.toMap_eq]
  | boundedContext hContext => rw [Model.add, Model.add, hContext.toContext_eq]

theorem ofDeclarations_eq_iff_describedBy_and_reordered :
    (∀ (model : Model) (declarations : List Declaration),
      Model.ofDeclarations declarations = model ↔ model.DescribedBy declarations) ∧
    ∀ declarations others : List Declaration, Reordered declarations others →
      Model.ofDeclarations declarations = Model.ofDeclarations others := by
  refine ⟨fun model declarations => (Model.describedBy_iff model declarations).symm, ?_⟩
  intro declarations others h
  induction h with
  | rel _ _ hSwaps => exact Model.ofDeclarations_eq_of_swaps hSwaps
  | refl _ => rfl
  | symm _ _ _ ih => exact ih.symm
  | trans _ _ _ _ _ ihFirst ihSecond => exact ihFirst.trans ihSecond

def orderKey : EntityItem :=
  .attribute { type := .reference "OrderId", name := "id", key := true, nullable := false }

/-- A map with one relationship, and an entity in a module. -/
def orderDocument (body : List RelationshipItem) (items : List EntityItem) : List Declaration :=
  [.contextMap ⟨none, [.contains ["Sales"],
      .relationship (.directed "Sales" "Billing" [.openHostService, .openHostService] [] body)]⟩,
    .boundedContext ⟨"Sales", [.module ⟨"core", [⟨"Orders", [.knowledgeLevel .metaLevel,
      .entity ⟨"Order", items⟩]⟩]⟩]⟩]

/-- Items have changed places in the body of the relationship and in the entity. -/
theorem ofDeclarations_orderDocument :
    Reordered (orderDocument [.exposedAggregates ["Orders"], .implementationTechnology "REST"] [.root, orderKey])
        (orderDocument [.implementationTechnology "REST", .exposedAggregates ["Orders"]] [orderKey, .root]) ∧
      Model.ofDeclarations
          (orderDocument [.exposedAggregates ["Orders"], .implementationTechnology "REST"] [.root, orderKey]) =
        Model.ofDeclarations
          (orderDocument [.implementationTechnology "REST", .exposedAggregates ["Orders"]] [orderKey, .root]) := by
  have hBody (items : List EntityItem) :
      Reordered (orderDocument [.exposedAggregates ["Orders"], .implementationTechnology "REST"] items)
        (orderDocument [.implementationTechnology "REST", .exposedAggregates ["Orders"]] items) :=
    .rel _ _ (.inside [] _ (.contextMap (.items (.inside [_] [] (.body (.neighbours [] [] (by decide)))))))
  have hEntity (body : List RelationshipItem) :
      Reordered (orderDocument body [.root, orderKey]) (orderDocument body [orderKey, .root]) :=
    .rel _ _ (.inside [_] [] (.boundedContext (.items (.inside [] [] (.module (.aggregates (.inside [] []
      (.items (.inside [_] [] (.entity (.items (.neighbours [] [] (by decide)))))))))))))
  have hBoth := Relation.EqvGen.trans _ _ _ (hBody [.root, orderKey]) (hEntity _)
  exact ⟨hBoth, ofDeclarations_eq_iff_describedBy_and_reordered.2 _ _ hBoth⟩

end DomainAtlas
