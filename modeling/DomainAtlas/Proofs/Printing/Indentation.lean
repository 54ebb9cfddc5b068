import DomainAtlas.Proofs.Printing.LineContents

/-! # Layout of documents

The layout of an element is written in one run of the pen at any depth, and so is a whole document. Its lines are
indented as deep as they stand, a single blank line stands before each element that is not the first thing in its
parent, and the lines that start elements are those of the elements of the model, in the order of the document.
-/
set_option autoImplicit false

namespace DomainAtlas

open Text Printer TextLine

/-! ## Headers of a model -/

def Aggregate.headers (aggregate : Aggregate) : List String :=
  elementHeader .aggregate aggregate.name
    :: (aggregate.entities.map (fun entity => elementHeader .entity entity.name)
      ++ aggregate.valueObjects.map (fun object => elementHeader .valueObject object.name)
      ++ aggregate.domainEvents.map (fun object => elementHeader .domainEvent object.name)
      ++ aggregate.commands.map (fun object => elementHeader .command object.name)
      ++ aggregate.services.map (fun service => elementHeader .service service.name))

def Module.headers (module : Module) : List String :=
  elementHeader .module module.name :: module.aggregates.flatMap Aggregate.headers

def BoundedContext.headers (context : BoundedContext) : List String :=
  elementHeader .boundedContext context.name
    :: (context.aggregates.flatMap Aggregate.headers ++ context.modules.flatMap Module.headers)

def ContextMap.header (map : ContextMap) : String :=
  match map.name with
  | some name => elementHeader .contextMap name
  | none => "ContextMap"

def ContextMap.headers (map : ContextMap) : List String :=
  map.header :: map.relationships.map Relationship.header

/-- The headers of all elements, in the order of the document. -/
def Model.headers (model : Model) : List String :=
  model.contextMap.toList.flatMap ContextMap.headers ++ model.boundedContexts.flatMap BoundedContext.headers

/-! ## Layouts -/

/-- Written where an element may stand, the layout leaves the pen behind a line, as deep as before. -/
def Layout.Tidy (layout : Layout) (headers : List String) : Prop :=
  ∀ (depth : Nat) (room : Room), room ≠ .written →
    Pen.Run ⟨depth, room⟩ (layout.lines depth) headers ⟨depth, .written⟩

inductive Layout.AllTidy : List Layout → List String → Prop
  | nil : AllTidy [] []
  | cons {child : Layout} {children : List Layout} {headers more : List String} (hChild : child.Tidy headers)
      (hChildren : AllTidy children more) : AllTidy (child :: children) (headers ++ more)

section Layouts

variable {header : String} {properties headers more : List String} {children others : List Layout}

theorem allTidy_append (h : Layout.AllTidy children headers) (hOthers : Layout.AllTidy others more) :
    Layout.AllTidy (children ++ others) (headers ++ more) := by
  induction h with
  | nil => exact hOthers
  | cons hChild _ ih =>
    rw [List.append_assoc]
    exact .cons hChild ih

theorem allTidy_flatMap {Element : Type} {layout : Element → Layout} {headersOf : Element → List String}
    {elements : List Element} (h : ∀ element ∈ elements, (layout element).Tidy (headersOf element)) :
    Layout.AllTidy (elements.map layout) (elements.flatMap headersOf) := by
  induction elements with
  | nil => exact .nil
  | cons element elements ih =>
    obtain ⟨hElement, hElements⟩ := List.forall_mem_cons.mp h
    exact .cons hElement (ih hElements)

theorem allTidy_map {Element : Type} {layout : Element → Layout} {headerOf : Element → String}
    {elements : List Element} (h : ∀ element ∈ elements, (layout element).Tidy [headerOf element]) :
    Layout.AllTidy (elements.map layout) (elements.map headerOf) := by
  have hHeaders : elements.map headerOf = elements.flatMap fun element => [headerOf element] := List.map_eq_flatMap
  rw [hHeaders]
  exact allTidy_flatMap h

theorem run_properties (h : ∀ content ∈ properties, IsProperty content) (depth : Nat) (room : Room)
    (hRoom : room ≠ .parted) :
    Pen.Run ⟨depth, room⟩ (properties.map (Line.text depth)) []
      ⟨depth, if properties.isEmpty then room else .written⟩ := by
  induction properties generalizing room with
  | nil => exact .nil _
  | cons content properties ih =>
    obtain ⟨hContent, hContents⟩ := List.forall_mem_cons.mp h
    have hRun := ih hContents .written (by decide)
    rw [ite_self] at hRun
    exact .cons (.line depth hContent.solid (.property hContent.plain hRoom)) hRun

/-- The first child stands right behind the opening line if nothing else does, and every other one behind a gap. -/
theorem run_children (h : Layout.AllTidy children headers) (depth : Nat) (first : Bool) :
    Pen.Run ⟨depth, if first then .opened else .written⟩ (Layout.childLines depth first children) headers
      ⟨depth, if first && children.isEmpty then .opened else .written⟩ := by
  induction h generalizing first with
  | nil =>
    rw [Layout.childLines, List.isEmpty_nil, Bool.and_true]
    exact .nil _
  | cons hChild _ ih =>
    rw [Layout.childLines, List.isEmpty_cons, Bool.and_false, if_neg Bool.false_ne_true]
    have hRest := ih false
    rw [Bool.false_and, if_neg Bool.false_ne_true] at hRest
    cases first with
    | true => exact (hChild depth .opened (by decide)).append hRest
    | false =>
      have hGap := (Pen.Writes.gap depth).run
      exact (hGap.append (hChild depth .parted (by decide))).append hRest

theorem tidy_bare (hHeader : IsHeader header) (ending : String) (hEnding : ending ∈ bareEndings) :
    (Layout.line (header ++ ending)).Tidy [header] :=
  fun depth _ hRoom =>
    (Pen.Writes.line depth (hHeader.solid.bare hEnding) (.element hHeader hEnding hRoom)).run

theorem tidy_block (hHeader : IsHeader header) (hProperties : ∀ content ∈ properties, IsProperty content)
    (hChildren : Layout.AllTidy children headers) (hSome : ¬ (properties.isEmpty && children.isEmpty) = true) :
    (Layout.block header properties children).Tidy (header :: headers) := by
  intro depth room hRoom
  have hLines := (run_properties hProperties (depth + 1) .opened (by decide)).append
    (run_children hChildren (depth + 1) properties.isEmpty)
  rw [if_neg hSome] at hLines
  have hClose := hLines.append (Pen.Writes.closing depth).run
  rw [List.nil_append, List.append_nil] at hClose
  exact .cons (.opening depth hHeader hRoom) hClose

theorem tidy_memberBlock (hHeader : IsHeader header) (hProperties : ∀ content ∈ properties, IsProperty content) :
    (memberBlock header properties).Tidy [header] := by
  rw [memberBlock]
  split
  · have hBare := tidy_bare hHeader "" List.mem_cons_self
    rwa [String.append_empty] at hBare
  · rename_i hSome
    exact tidy_block hHeader hProperties .nil (by simpa using hSome)

theorem tidy_closedBlock (hHeader : IsHeader header) (hProperties : ∀ content ∈ properties, IsProperty content)
    (hChildren : Layout.AllTidy children headers) :
    (closedBlock header properties children).Tidy (header :: headers) := by
  rw [closedBlock]
  split
  · rename_i hEmpty
    obtain ⟨rfl, rfl⟩ : properties = [] ∧ children = [] := by simpa using hEmpty
    cases hChildren
    exact tidy_bare hHeader _ (List.mem_cons_of_mem _ List.mem_cons_self)
  · exact tidy_block hHeader hProperties hChildren ‹_›

end Layouts

/-! ## Properties of elements -/

theorem isProperty_optionalLine {α : Type} (keyword : Keyword) {text : α → String}
    (hNot : keyword ∉ elementKeywords ++ relationKeywords) (h : ∀ value, Solid (text value)) (value? : Option α) :
    ∀ content ∈ optionalLine keyword.text value? text, IsProperty content := by
  cases value? with
  | none => exact List.forall_mem_nil _
  | some value => exact List.forall_mem_singleton.mpr (isProperty_value keyword hNot (h value))

theorem isProperty_listLine {label : String} {text : List String → String} {values : List String}
    (h : values ≠ [] → IsProperty (label ++ text values)) :
    ∀ content ∈ listLine label values text, IsProperty content := by
  cases values with
  | nil => exact List.forall_mem_nil _
  | cons first others => exact List.forall_mem_singleton.mpr (h (List.cons_ne_nil first others))

theorem solid_quotedList {texts : List String} (hSome : texts ≠ []) : Solid (quotedList texts) := by
  refine solid_intercalate (mt List.map_eq_nil_iff.mp hSome) ?_
  rw [List.forall_mem_map]
  exact fun text _ => solid_quote text

theorem solid_nameList {names : List String} (hSome : names ≠ []) (h : ∀ name ∈ names, isWord name = true) :
    Solid (nameList names) := by
  refine solid_intercalate (mt List.map_eq_nil_iff.mp hSome) ?_
  rw [List.forall_mem_map]
  exact fun name hName => solid_writtenName (h name hName)

theorem plain_nameList {names : List String} (hSome : names ≠ []) (h : ∀ name ∈ names, isWord name = true) :
    Plain (nameList names).toList := by
  obtain ⟨name, others, rfl⟩ := List.exists_cons_of_ne_nil hSome
  have hTrails : Phrase.Trails (String.join ((others.map writtenName).map (", " ++ ·))) := by
    refine Phrase.trails_join ?_
    rw [List.forall_mem_map]
    exact fun text _ => Phrase.endsBefore_comma.append text
  rw [nameList, List.map_cons, Phrase.intercalate_cons, String.toList_append]
  exact plain_writtenName (h name List.mem_cons_self) hTrails.endsWord

theorem isProperty_responsibilities (texts : List String) :
    ∀ content ∈ responsibilitiesLine texts, IsProperty content :=
  isProperty_listLine fun hSome => isProperty_value .responsibilities (by decide) (solid_quotedList hSome)

theorem isProperty_technology (technology? : Option String) :
    ∀ content ∈ technologyLine technology?, IsProperty content :=
  isProperty_optionalLine .implementationTechnology (by decide) solid_quote technology?

theorem isProperty_level (level? : Option KnowledgeLevel) : ∀ content ∈ levelLine level?, IsProperty content :=
  isProperty_optionalLine .knowledgeLevel (by decide)
    (fun level : KnowledgeLevel => solid_word (isWord_text level.keyword)) level?

/-! ## Elements -/

theorem isProperty_attributes {members : List Attribute} (h : ∀ member ∈ members, member.WellFormed) :
    ∀ content ∈ members.map attributeLine, IsProperty content := by
  rw [List.forall_mem_map]
  exact fun member hMember => isProperty_attribute (h member hMember)

theorem isProperty_operations {members : List Operation} (h : ∀ member ∈ members, member.WellFormed) :
    ∀ content ∈ members.map operationLine, IsProperty content := by
  rw [List.forall_mem_map]
  exact fun member hMember => isProperty_operation (h member hMember)

theorem tidy_entity {entity : Entity} (h : entity.WellFormed) :
    (entityLayout entity).Tidy [elementHeader .entity entity.name] := by
  have hRoot : ∀ content ∈ if entity.isRoot then ["aggregateRoot"] else [], IsProperty content := by
    split
    · exact List.forall_mem_singleton.mpr ⟨solid_word (by decide), by decide⟩
    · exact List.forall_mem_nil _
  refine tidy_memberBlock (isHeader_element .entity (by decide) h.name) ?_
  simp only [List.forall_mem_append]
  exact ⟨⟨hRoot, isProperty_attributes h.attributes⟩, isProperty_operations h.operations⟩

theorem tidy_object (kind : Keyword) (hKind : kind ∈ elementKeywords) {object : DomainObject} (h : object.WellFormed) :
    (objectLayout kind object).Tidy [elementHeader kind object.name] :=
  tidy_memberBlock (isHeader_element kind hKind h.name) (isProperty_attributes h.attributes)

theorem tidy_service {service : Service} (h : service.WellFormed) :
    (serviceLayout service).Tidy [elementHeader .service service.name] :=
  tidy_memberBlock (isHeader_element .service (by decide) h.name) (isProperty_operations h.operations)

theorem tidy_aggregate {aggregate : Aggregate} (h : aggregate.WellFormed) :
    (aggregateLayout aggregate).Tidy aggregate.headers := by
  have hEntities := allTidy_map fun entity hEntity => tidy_entity (h.entities entity hEntity)
  have hValueObjects := allTidy_map fun object hObject =>
    tidy_object .valueObject (by decide) (h.valueObjects object hObject)
  have hDomainEvents := allTidy_map fun object hObject =>
    tidy_object .domainEvent (by decide) (h.domainEvents object hObject)
  have hCommands := allTidy_map fun object hObject =>
    tidy_object .command (by decide) (h.commands object hObject)
  have hServices := allTidy_map fun service hService => tidy_service (h.services service hService)
  exact tidy_closedBlock (isHeader_element .aggregate (by decide) h.name)
    (List.forall_mem_append.mpr ⟨isProperty_responsibilities _, isProperty_level _⟩)
    (allTidy_append (allTidy_append (allTidy_append (allTidy_append hEntities hValueObjects) hDomainEvents) hCommands)
      hServices)

theorem tidy_module {module : Module} (h : module.WellFormed) : (moduleLayout module).Tidy module.headers :=
  tidy_closedBlock (isHeader_element .module (by decide) h.name) (List.forall_mem_nil _)
    (allTidy_flatMap fun aggregate hAggregate => tidy_aggregate (h.aggregates aggregate hAggregate))

theorem tidy_context {context : BoundedContext} (h : context.WellFormed) :
    (contextLayout context).Tidy context.headers := by
  have hVision := isProperty_optionalLine .domainVisionStatement (by decide) solid_quote
    context.visionStatement
  have hType := isProperty_optionalLine .type (by decide)
    (fun type : ContextType => solid_word (isWord_text type.keyword)) context.contextType
  refine tidy_closedBlock (isHeader_element .boundedContext (by decide) h.name) ?_ (allTidy_append
    (allTidy_flatMap fun aggregate hAggregate => tidy_aggregate (h.aggregates aggregate hAggregate))
    (allTidy_flatMap fun module hModule => tidy_module (h.modules module hModule)))
  simp only [List.forall_mem_append]
  exact ⟨⟨⟨⟨hVision, isProperty_responsibilities _⟩, isProperty_technology _⟩, isProperty_level _⟩, hType⟩

theorem tidy_relationship {relationship : Relationship} (h : relationship.WellNamed) :
    (relationshipLayout relationship).Tidy [relationship.header] := by
  have hHeader := isHeader_relationship h
  cases relationship with
  | symmetric kind first second =>
    have hBare := tidy_bare hHeader "" List.mem_cons_self
    rwa [String.append_empty] at hBare
  | directed relationship =>
    have hExposed : ∀ content ∈ listLine "exposedAggregates = " relationship.exposedAggregates nameList,
        IsProperty content := isProperty_listLine fun hSome =>
      isProperty_value .exposedAggregates (by decide) (solid_nameList hSome h.exposedAggregates)
    have hTidy := tidy_memberBlock hHeader
      (List.forall_mem_append.mpr ⟨hExposed, isProperty_technology relationship.implementationTechnology⟩)
    simpa [relationshipLayout, Relationship.header, Relationship.arrow, Relationship.participants, String.append_assoc]
      using hTidy

theorem isHeader_map {map : ContextMap} (h : map.WellNamed) : IsHeader map.header := by
  rw [ContextMap.header]
  split
  · rename_i name hName
    exact isHeader_element .contextMap (by decide) (h.name name hName)
  · exact isHeader_contextMap

theorem tidy_map {map : ContextMap} (h : map.WellNamed) : (mapLayout map).Tidy map.headers := by
  have hType : ∀ content ∈ optionalLine "type" map.mapType id, IsProperty content := by
    cases hMap : map.mapType with
    | none => exact List.forall_mem_nil _
    | some word =>
      exact List.forall_mem_singleton.mpr
        (isProperty_value .type (by decide) (solid_word (h.mapType word hMap)))
  have hState : ∀ content ∈ ["state = " ++ map.state.keyword.text], IsProperty content :=
    List.forall_mem_singleton.mpr (isProperty_value .state (by decide) (solid_word (isWord_text _)))
  have hContains : ∀ content ∈ listLine "contains " map.contains nameList, IsProperty content :=
    isProperty_listLine fun hSome => isProperty_keyword .contains (by decide)
      (solid_nameList hSome h.contains) (plain_nameList hSome h.contains)
  have hProperties := List.forall_mem_append.mpr ⟨List.forall_mem_append.mpr ⟨hType, hState⟩, hContains⟩
  refine tidy_block (isHeader_map h) hProperties
    (allTidy_map fun relationship hRelationship => tidy_relationship (h.relationships relationship hRelationship)) ?_
  simp

/-! ## Documents -/

section Documents

variable {model : Model} (hMap : ∀ map ∈ model.contextMap, map.WellNamed)
  (hContexts : ∀ context ∈ model.boundedContexts, context.WellFormed)

include hMap hContexts

theorem allTidy_layout : Layout.AllTidy model.layout model.headers := by
  have hMaps := allTidy_flatMap fun map (hMem : map ∈ model.contextMap.toList) =>
    tidy_map (hMap map (Option.mem_toList.mp hMem))
  exact allTidy_append hMaps (allTidy_flatMap fun context hContext => tidy_context (hContexts context hContext))

/-- Free texts may hold anything, line ends and braces included, relationships may repeat patterns, and the model may
have any name: the lines do not tell. -/
theorem print_laid_out (width : Nat) :
    (model.print width = "" ∨ ∃ front, model.print width = front ++ "\n") ∧
      WellLaid width (textLines (model.print width)) ∧
      List.Forall₂ Heads model.headers ((textLines (model.print width)).filter startsElement) := by
  have hRun := run_children (allTidy_layout hMap hContexts) 0 true
  have hText : model.print width = linesText width (Layout.childLines 0 true model.layout) := rfl
  have hRoom : (if true && model.layout.isEmpty then Room.opened else .written) ≠ .parted := by
    split <;> decide
  rw [hText, textLines_linesText (hRun.oneLine width)]
  exact ⟨linesText_eq_empty_or_ends width _, hRun.wellLaid hRoom width, hRun.heads width⟩

end Documents

/-- A map and a context with braces and line ends in their free texts. -/
def bracedShop : Model where
  contextMap := some {
    contains := ["Shop", "Module"]
    relationships := [
      .symmetric .partnership "Shop" "Module",
      .directed { upstream := "Shop", downstream := "Module", implementationTechnology := some "\x7d\n\x7d" }] }
  boundedContexts := [{
    name := "Shop"
    visionStatement := some "Sell \x7b\n\n"
    aggregates := [{
      name := "Orders"
      entities := [{ name := "Order", isRoot := true }]
      services := [{ name := "Desk" }] }]
    modules := [{ name := "Module" }] }]

theorem print_laid_out_bracedShop :
    (∀ map ∈ bracedShop.contextMap, map.WellNamed) ∧ (∀ context ∈ bracedShop.boundedContexts, context.WellFormed) ∧
      (bracedShop.print 2 = "" ∨ ∃ front, bracedShop.print 2 = front ++ "\n") ∧
      WellLaid 2 (textLines (bracedShop.print 2)) ∧
      List.Forall₂ Heads bracedShop.headers ((textLines (bracedShop.print 2)).filter startsElement) := by
  have hMap : ∀ map ∈ bracedShop.contextMap, map.WellNamed := by
    rintro map ⟨⟩
    refine ⟨by decide, by decide, by decide, List.forall_mem_cons.mpr ⟨?_, List.forall_mem_singleton.mpr ?_⟩⟩
    · exact ⟨by decide, by decide⟩
    · exact ⟨by decide, by decide, by decide⟩
  have hContexts : ∀ context ∈ bracedShop.boundedContexts, context.WellFormed := by
    have hOrder : Entity.WellFormed { name := "Order", isRoot := true } :=
      ⟨by decide, List.forall_mem_nil _, List.forall_mem_nil _⟩
    have hDesk : Service.WellFormed { name := "Desk" } := ⟨by decide, List.forall_mem_nil _⟩
    refine List.forall_mem_singleton.mpr ⟨by decide, List.forall_mem_singleton.mpr ?_, List.forall_mem_singleton.mpr ?_⟩
    · exact ⟨by decide, List.forall_mem_singleton.mpr hOrder, List.forall_mem_nil _, List.forall_mem_nil _,
        List.forall_mem_nil _, List.forall_mem_singleton.mpr hDesk⟩
    · exact ⟨by decide, List.forall_mem_nil _⟩
  exact ⟨hMap, hContexts, print_laid_out hMap hContexts 2⟩

example :
    bracedShop.print 1 = "ContextMap \x7b\n state = AS_IS\n contains Shop, ^Module\n\n Shop Partnership ^Module\n\n"
      ++ " Shop [U] -> [D] ^Module \x7b\n  implementationTechnology = \"\x7d\\n\x7d\"\n \x7d\n\x7d\n\n"
      ++ "BoundedContext Shop \x7b\n domainVisionStatement = \"Sell \x7b\\n\\n\"\n\n"
      ++ " Aggregate Orders \x7b\n  Entity Order \x7b\n   aggregateRoot\n  \x7d\n\n  Service Desk\n \x7d\n\n"
      ++ " Module ^Module \x7b\x7d\n\x7d\n" := by
  decide +kernel

end DomainAtlas
