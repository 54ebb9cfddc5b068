import DomainAtlas.Proofs.Printing.Blocks

/-! # Elements as written

Every element that is well-formed with its types in canonical form is laid out as a declaration that describes just
this form of it.
-/
set_option autoImplicit false

namespace DomainAtlas

open Text Printer

variable {α β γ δ : Type}

/-! ## The items of a written block -/

/-- The item for a list that is written only where it has elements. -/
def listItem (wrap : List β → α) (values : List β) : List α :=
  if values.isEmpty then [] else [wrap values]

namespace Phrase

theorem Listed.append {item : Phrase α} {properties more : List String} {values others : List α}
    (h : item.Listed properties values) (hMore : item.Listed more others) :
    item.Listed (properties ++ more) (values ++ others) :=
  List.rel_append h hMore

theorem Nested.append {item : Phrase α} {children more : List Layout} {values others : List α}
    (h : item.Nested children values) (hMore : item.Nested more others) :
    item.Nested (children ++ more) (values ++ others) :=
  List.rel_append h hMore

theorem Listed.wrap {inner : Phrase β} {item : Phrase α} {wrap : β → α} {properties : List String}
    {values : List β} (h : inner.Listed properties values)
    (hWrap : ∀ tokens value, inner tokens value → item tokens (wrap value)) :
    item.Listed properties (values.map wrap) :=
  List.forall₂_map_right_iff.mpr (h.imp fun _ value hLine => hLine.imp fun tokens => hWrap tokens value)

theorem Nested.wrap {inner : Phrase β} {item : Phrase α} {wrap : β → α} {children : List Layout}
    {values : List β} (h : inner.Nested children values)
    (hWrap : ∀ tokens value, inner tokens value → item tokens (wrap value)) :
    item.Nested children (values.map wrap) :=
  List.forall₂_map_right_iff.mpr
    (h.imp fun _ value hLaid width depth => (hLaid width depth).imp fun tokens => hWrap tokens value)

theorem listed_optionalLine {item : Phrase α} {wrap : β → α} {label : String} {text : β → String}
    (h : ∀ value, item.Spelt EndsWord (label ++ " = " ++ text value) (wrap value)) (value? : Option β) :
    item.Listed (optionalLine label value? text) (value?.toList.map wrap) := by
  cases value? with
  | none => exact .nil
  | some value => exact .cons (h value) .nil

theorem listed_listLine {item : Phrase α} {wrap : List String → α} {label : String}
    {text : List String → String} {values : List String}
    (h : values ≠ [] → item.Spelt EndsWord (label ++ text values) (wrap values)) :
    item.Listed (listLine label values text) (listItem wrap values) := by
  cases values with
  | nil => exact .nil
  | cons first others => exact .cons (h (List.cons_ne_nil first others)) .nil

theorem mapped {phrase : Phrase α} {tokens : List Token} {value : α} (h : phrase tokens value) (f : α → β) :
    (f <$> phrase) tokens (f value) :=
  map_iff.mpr ⟨value, h, rfl⟩

/-! ## Headers and properties -/

/-- A keyword with a name after it. -/
def titled (k : Keyword) : Phrase String := do
  keyword k
  name

theorem spelt_titled (k : Keyword) {n : String} (h : isWord n = true) :
    (titled k).Spelt EndsWord (k.text ++ " " ++ writtenName n) n :=
  (spelt_keyword k).bindSpace (spelt_name h)

theorem spelt_property (k : Keyword) {value : Phrase α} {text : String} {result : α}
    (h : value.Spelt EndsWord text result) :
    (property k value).Spelt EndsWord (k.text ++ " = " ++ text) result := by
  have hEquals : (symbol .equals).Spelt anyText "= " () :=
    ((spelt_symbol (s := .equals) fun _ => trivial).closed EndsWord).beforeSpace
  have hBoth : (property k value).Spelt EndsWord _ result := (spelt_keyword k).bindSpace (hEquals.bind h)
  have hText : k.text ++ " = " ++ text = k.text ++ " " ++ ("= " ++ text) := by
    rw [show " = " = " " ++ "= " from rfl]
    simp only [String.append_assoc]
  rw [hText]
  exact hBoth

theorem spelt_strings {texts : List String} (h : texts ≠ []) :
    strings.Spelt EndsWord (quotedList texts) texts :=
  spelt_separated_self spelt_comma endsBefore_comma h fun text _ => (spelt_string text).closed EndsWord

theorem spelt_names {texts : List String} (h : texts ≠ []) (hWords : ∀ text ∈ texts, isWord text = true) :
    names.Spelt EndsWord (nameList texts) texts :=
  spelt_separated_self spelt_comma endsBefore_comma h fun text hText => spelt_name (hWords text hText)

/-! ## Entities, objects and services -/

theorem entityDecl_eq :
    entityDecl = titled .entity >>= fun name => EntityDecl.mk name <$> optionalBlock entityItem :=
  (bind_assoc ..).symm

theorem objectDecl_eq (kind : Keyword) :
    objectDecl kind = titled kind >>= fun name => ObjectDecl.mk name <$> optionalBlock attributeDecl :=
  (bind_assoc ..).symm

theorem serviceDecl_eq :
    serviceDecl = titled .service >>= fun name => ServiceDecl.mk name <$> optionalBlock operationDecl :=
  (bind_assoc ..).symm

theorem listed_attributes {members : List Attribute}
    (h : ∀ member ∈ members.map (Attribute.mapTypes canonicalType), member.WellFormed) :
    ∃ decls : List AttributeDecl,
      decls.map AttributeDecl.toAttribute = members.map (Attribute.mapTypes canonicalType) ∧
        attributeDecl.Listed (members.map attributeLine) decls :=
  exists_forall₂_map fun _ hMember => spelt_of_map (spelt_attribute (h _ (List.mem_map_of_mem hMember)))

theorem listed_operations {members : List Operation}
    (h : ∀ member ∈ members.map (Operation.mapTypes canonicalType), member.WellFormed) :
    ∃ decls : List OperationDecl,
      decls.map OperationDecl.toOperation = members.map (Operation.mapTypes canonicalType) ∧
        operationDecl.Listed (members.map operationLine) decls :=
  exists_forall₂_map fun _ hMember => spelt_of_map (spelt_operation (h _ (List.mem_map_of_mem hMember)))

theorem listed_rootMark (isRoot : Bool) :
    entityItem.Listed (if isRoot then ["aggregateRoot"] else []) (if isRoot then [.root] else []) := by
  have hMark : rootMark.Spelt EndsWord ("aggregateRoot" ++ "") .root :=
    (spelt_keyword .aggregateRoot).bindTrailing (spelt_pure _ EndsWord) trails_empty
  cases isRoot with
  | false => exact .nil
  | true => exact .cons (hMark.inl _) .nil

theorem laid_entity {entity : Entity} (h : (entity.mapTypes canonicalType).WellFormed) :
    ∃ decl : EntityDecl, decl.toEntity = entity.mapTypes canonicalType ∧
      entityDecl.Laid (entityLayout entity) decl := by
  obtain ⟨name, isRoot, attributes, operations⟩ := entity
  obtain ⟨attributeDecls, hAttributeDecls, hAttributes⟩ := listed_attributes h.attributes
  obtain ⟨operationDecls, hOperationDecls, hOperations⟩ := listed_operations h.operations
  have hItems := ((listed_rootMark isRoot).append
    (hAttributes.wrap fun _ _ h => .inr (.inr (mapped h EntityItem.attribute)))).append
    (hOperations.wrap fun _ _ h => .inr (.inl (mapped h EntityItem.operation)))
  have hLaid := laid_memberBlock EntityDecl.mk (spelt_titled .entity h.name) hItems
  rw [← entityDecl_eq] at hLaid
  refine ⟨_, ?_, hLaid⟩
  rw [EntityDecl.toEntity_eq, Entity.mapTypes, ← hAttributeDecls, ← hOperationDecls]
  cases isRoot <;>
    simp [List.filterMap_cons, Function.comp_def, EntityItem.isRoot, EntityItem.attribute?, EntityItem.operation?]

theorem laid_object (kind : Keyword) {object : DomainObject}
    (h : (object.mapTypes canonicalType).WellFormed) :
    ∃ decl : ObjectDecl, decl.toObject = object.mapTypes canonicalType ∧
      (objectDecl kind).Laid (objectLayout kind object) decl := by
  obtain ⟨name, attributes⟩ := object
  obtain ⟨decls, hDecls, hAttributes⟩ := listed_attributes h.attributes
  refine ⟨⟨name, decls⟩, congrArg (DomainObject.mk name) hDecls, ?_⟩
  rw [objectDecl_eq]
  exact laid_memberBlock _ (spelt_titled kind h.name) hAttributes

theorem laid_service {service : Service} (h : (service.mapTypes canonicalType).WellFormed) :
    ∃ decl : ServiceDecl, decl.toService = service.mapTypes canonicalType ∧
      serviceDecl.Laid (serviceLayout service) decl := by
  obtain ⟨name, operations⟩ := service
  obtain ⟨decls, hDecls, hOperations⟩ := listed_operations h.operations
  refine ⟨⟨name, decls⟩, congrArg (Service.mk name) hDecls, ?_⟩
  rw [serviceDecl_eq]
  exact laid_memberBlock _ (spelt_titled .service h.name) hOperations

/-! ## Aggregates, modules and contexts -/

theorem aggregateDecl_eq :
    aggregateDecl = titled .aggregate >>= fun name => AggregateDecl.mk name <$> block aggregateItem :=
  (bind_assoc ..).symm

theorem moduleDecl_eq :
    moduleDecl = titled .module >>= fun name => ModuleDecl.mk name <$> block aggregateDecl :=
  (bind_assoc ..).symm

theorem contextDecl_eq :
    contextDecl = titled .boundedContext >>= fun name => ContextDecl.mk name <$> block contextItem :=
  (bind_assoc ..).symm

theorem spelt_responsibilities {texts : List String} (h : texts ≠ []) :
    responsibilities.Spelt EndsWord ("responsibilities = " ++ quotedList texts) texts :=
  spelt_property .responsibilities (spelt_strings h)

theorem spelt_technology (text : String) :
    implementationTechnology.Spelt EndsWord ("implementationTechnology" ++ " = " ++ Quoted.quote text) text :=
  spelt_property .implementationTechnology ((spelt_string text).closed EndsWord)

theorem spelt_level (level : KnowledgeLevel) :
    knowledgeLevel.Spelt EndsWord ("knowledgeLevel" ++ " = " ++ level.keyword.text) level := by
  refine spelt_property .knowledgeLevel (spelt_keywordValue ?_)
  cases level <;> rfl

theorem spelt_contextType (type : ContextType) :
    (property .type (keywordValue ContextType.ofKeyword?)).Spelt EndsWord
      ("type" ++ " = " ++ type.keyword.text) type := by
  refine spelt_property .type (spelt_keywordValue ?_)
  cases type <;> rfl

/-- Elements laid out one after another, each of which is read as `meant` says. -/
theorem nested_map {Element Decl : Type} {phrase : Phrase Decl} {layout : Element → Layout}
    {toElement : Decl → Element} {meant : Element → Element} {WellFormed : Element → Prop}
    (hLaid : ∀ element, WellFormed (meant element) →
      ∃ decl, toElement decl = meant element ∧ phrase.Laid (layout element) decl)
    {elements : List Element} (h : ∀ element ∈ elements.map meant, WellFormed element) :
    ∃ decls : List Decl, decls.map toElement = elements.map meant ∧
      phrase.Nested (elements.map layout) decls :=
  exists_forall₂_map fun _ hElement => hLaid _ (h _ (List.mem_map_of_mem hElement))

theorem laid_aggregate {aggregate : Aggregate} (h : (aggregate.mapTypes canonicalType).WellFormed) :
    ∃ decl : AggregateDecl, decl.toAggregate = aggregate.mapTypes canonicalType ∧
      aggregateDecl.Laid (aggregateLayout aggregate) decl := by
  obtain ⟨name, texts, level, entities, valueObjects, domainEvents, commands, services⟩ := aggregate
  obtain ⟨entityDecls, hEntityDecls, hEntities⟩ := nested_map (fun _ => laid_entity) h.entities
  obtain ⟨valueObjectDecls, hValueObjectDecls, hValueObjects⟩ :=
    nested_map (fun _ => laid_object .valueObject) h.valueObjects
  obtain ⟨domainEventDecls, hDomainEventDecls, hDomainEvents⟩ :=
    nested_map (fun _ => laid_object .domainEvent) h.domainEvents
  obtain ⟨commandDecls, hCommandDecls, hCommands⟩ :=
    nested_map (fun _ => laid_object .command) h.commands
  obtain ⟨serviceDecls, hServiceDecls, hServices⟩ := nested_map (fun _ => laid_service) h.services
  have hTexts : aggregateItem.Listed (responsibilitiesLine texts) (listItem .responsibilities texts) :=
    listed_listLine fun hTexts => ((spelt_responsibilities hTexts).map _).inl _
  have hLevel : aggregateItem.Listed (levelLine level) (level.toList.map .knowledgeLevel) :=
    listed_optionalLine (fun level => (((spelt_level level).map _).inl _).inr _) level
  have hEntityItems : aggregateItem.Nested _ (entityDecls.map .entity) :=
    Nested.wrap hEntities fun _ _ h => .inr (.inr (.inl (mapped h _)))
  have hValueObjectItems : aggregateItem.Nested _ (valueObjectDecls.map .valueObject) :=
    Nested.wrap hValueObjects fun _ _ h => .inr (.inr (.inr (.inl (mapped h _))))
  have hDomainEventItems : aggregateItem.Nested _ (domainEventDecls.map .domainEvent) :=
    Nested.wrap hDomainEvents fun _ _ h => .inr (.inr (.inr (.inr (.inl (mapped h _)))))
  have hCommandItems : aggregateItem.Nested _ (commandDecls.map .command) :=
    Nested.wrap hCommands fun _ _ h => .inr (.inr (.inr (.inr (.inr (.inl (mapped h _))))))
  have hServiceItems : aggregateItem.Nested _ (serviceDecls.map .service) :=
    Nested.wrap hServices fun _ _ h => .inr (.inr (.inr (.inr (.inr (.inr (mapped h _))))))
  have hChildren := (((hEntityItems.append hValueObjectItems).append hDomainEventItems).append
    hCommandItems).append hServiceItems
  have hLaid := laid_closedBlock AggregateDecl.mk (spelt_titled .aggregate h.name)
    (hTexts.append hLevel) hChildren
  rw [← aggregateDecl_eq] at hLaid
  refine ⟨_, ?_, hLaid⟩
  rw [AggregateDecl.toAggregate_eq, Aggregate.mapTypes, ← hEntityDecls, ← hValueObjectDecls, ← hDomainEventDecls,
    ← hCommandDecls, ← hServiceDecls]
  cases texts <;>
    simp [listItem, lastValue_cons, lastValue_append, lastValue_map, lastValue_toList, lastValue_none,
      Function.comp_def, List.filterMap_cons, AggregateItem.texts, AggregateItem.level?,
      AggregateItem.entity?, AggregateItem.valueObject?, AggregateItem.domainEvent?, AggregateItem.command?,
      AggregateItem.service?]

theorem laid_module {module : Module} (h : (module.mapTypes canonicalType).WellFormed) :
    ∃ decl : ModuleDecl, decl.toModule = module.mapTypes canonicalType ∧
      moduleDecl.Laid (moduleLayout module) decl := by
  obtain ⟨name, aggregates⟩ := module
  obtain ⟨decls, hDecls, hAggregates⟩ := nested_map (fun _ => laid_aggregate) h.aggregates
  have hLaid := laid_closedBlock ModuleDecl.mk (spelt_titled .module h.name)
    (.nil : aggregateDecl.Listed [] []) hAggregates
  rw [← moduleDecl_eq] at hLaid
  exact ⟨⟨name, decls⟩, congrArg (Module.mk name) hDecls, hLaid⟩

theorem laid_context {context : BoundedContext} (h : (context.mapTypes canonicalType).WellFormed) :
    ∃ decl : ContextDecl, decl.toContext = context.mapTypes canonicalType ∧
      contextDecl.Laid (contextLayout context) decl := by
  obtain ⟨name, vision, texts, technology, level, type, aggregates, modules⟩ := context
  obtain ⟨aggregateDecls, hAggregateDecls, hAggregates⟩ := nested_map (fun _ => laid_aggregate) h.aggregates
  obtain ⟨moduleDecls, hModuleDecls, hModules⟩ := nested_map (fun _ => laid_module) h.modules
  have hVision : contextItem.Listed (optionalLine "domainVisionStatement" vision Quoted.quote)
      (vision.toList.map .visionStatement) :=
    listed_optionalLine (fun text => ((spelt_property .domainVisionStatement
      ((spelt_string text).closed EndsWord)).map _).inl _) vision
  have hTexts : contextItem.Listed (responsibilitiesLine texts) (listItem .responsibilities texts) :=
    listed_listLine fun hTexts => (((spelt_responsibilities hTexts).map _).inl _).inr _
  have hTechnology : contextItem.Listed (technologyLine technology)
      (technology.toList.map .implementationTechnology) :=
    listed_optionalLine (fun text => ((((spelt_technology text).map _).inl _).inr _).inr _) technology
  have hLevel : contextItem.Listed (levelLine level) (level.toList.map .knowledgeLevel) :=
    listed_optionalLine (fun level => (((((spelt_level level).map _).inl _).inr _).inr _).inr _) level
  have hType : contextItem.Listed (optionalLine "type" type fun type => type.keyword.text)
      (type.toList.map .type) :=
    listed_optionalLine
      (fun type => ((((((spelt_contextType type).map _).inl _).inr _).inr _).inr _).inr _) type
  have hAggregateItems : contextItem.Nested _ (aggregateDecls.map .aggregate) :=
    Nested.wrap hAggregates fun _ _ h => .inr (.inr (.inr (.inr (.inr (.inl (mapped h _))))))
  have hModuleItems : contextItem.Nested _ (moduleDecls.map .module) :=
    Nested.wrap hModules fun _ _ h => .inr (.inr (.inr (.inr (.inr (.inr (mapped h _))))))
  have hLaid := laid_closedBlock ContextDecl.mk (spelt_titled .boundedContext h.name)
    ((((hVision.append hTexts).append hTechnology).append hLevel).append hType)
    (hAggregateItems.append hModuleItems)
  rw [← contextDecl_eq] at hLaid
  refine ⟨_, ?_, hLaid⟩
  rw [ContextDecl.toContext_eq, BoundedContext.mapTypes, ← hAggregateDecls, ← hModuleDecls]
  cases texts <;>
    simp [listItem, lastValue_cons, lastValue_append, lastValue_map, lastValue_toList, lastValue_none,
      Function.comp_def, List.filterMap_cons, List.flatMap_map, flatMap_empty, ContextItem.vision?,
      ContextItem.texts, ContextItem.technology?, ContextItem.level?, ContextItem.type?, ContextItem.aggregate?,
      ContextItem.module?]

end Phrase

end DomainAtlas
