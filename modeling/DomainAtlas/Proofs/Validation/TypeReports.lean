import DomainAtlas.Proofs.Model.CanonicalTypes
import DomainAtlas.Proofs.Model.TypeGuard
import DomainAtlas.Proofs.Validation.ByCode
import DomainAtlas.Proofs.Validation.Traversal

/-! # The report on types

Every attribute, every parameter and every returned value is looked at once. In the model of a document all types are in
canonical form; of those, the ones with a foreign name are reported, for that name, and no others are.
-/
set_option autoImplicit false

namespace DomainAtlas

open Text Validation

/-! ## The types of a model -/

/-- A type where it is mentioned: for what, and the location of the element that mentions it. -/
structure TypeUse where
  site : TypeSite
  type : String
  location : Location
  deriving DecidableEq, Repr

def Attribute.typeUse (here : Location) (member : Attribute) : TypeUse :=
  ⟨.attribute member.name, member.type, here⟩

def Operation.typeUses (here : Location) (member : Operation) : List TypeUse :=
  member.returnType.toList.map (fun type => ⟨.returned member.name, type, here⟩)
    ++ member.parameters.map fun parameter => ⟨.parameter parameter.name member.name, parameter.type, here⟩

def Entity.typeUses (parent : Location) (entity : Entity) : List TypeUse :=
  let here := parent.child "Entity" entity.name
  entity.attributes.map (Attribute.typeUse here) ++ entity.operations.flatMap (Operation.typeUses here)

def DomainObject.typeUses (kind : String) (parent : Location) (object : DomainObject) : List TypeUse :=
  object.attributes.map (Attribute.typeUse (parent.child kind object.name))

def Service.typeUses (parent : Location) (service : Service) : List TypeUse :=
  service.operations.flatMap (Operation.typeUses (parent.child "Service" service.name))

def Aggregate.typeUses (here : Location) (aggregate : Aggregate) : List TypeUse :=
  aggregate.entities.flatMap (Entity.typeUses here)
    ++ aggregate.valueObjects.flatMap (DomainObject.typeUses "ValueObject" here)
    ++ aggregate.domainEvents.flatMap (DomainObject.typeUses "DomainEvent" here)
    ++ aggregate.commands.flatMap (DomainObject.typeUses "Command" here)
    ++ aggregate.services.flatMap (Service.typeUses here)

/-- The types of all attributes, parameters and returned values, those in modules included, in document order. -/
def Model.typeUses (model : Model) : List TypeUse :=
  model.sitedAggregates.flatMap fun owner => owner.placed.aggregate.typeUses owner.location

theorem Aggregate.WellFormed.typeUses {aggregate : Aggregate} (h : aggregate.WellFormed) (here : Location) :
    ∀ use ∈ aggregate.typeUses here, IsCanonicalType use.type := by
  have hAttributes {members : List Attribute} (hMembers : ∀ member ∈ members, member.WellFormed) (place : Location) :
      ∀ use ∈ members.map (Attribute.typeUse place), IsCanonicalType use.type :=
    List.forall_mem_map.mpr fun member hMember => (hMembers member hMember).type
  have hOperations {members : List Operation} (hMembers : ∀ member ∈ members, member.WellFormed) (place : Location) :
      ∀ use ∈ members.flatMap (Operation.typeUses place), IsCanonicalType use.type := by
    refine List.forall_mem_flatMap.mpr fun member hMember => ?_
    rw [Operation.typeUses, List.forall_mem_append, List.forall_mem_map, List.forall_mem_map]
    exact ⟨fun type hType => (hMembers member hMember).returnType type (Option.mem_toList.mp hType),
      fun parameter hParameter => ((hMembers member hMember).parameters parameter hParameter).type⟩
  simp only [Aggregate.typeUses, List.forall_mem_append, List.forall_mem_flatMap]
  refine ⟨⟨⟨⟨fun entity hMem => ?_, fun object hMem => ?_⟩, fun object hMem => ?_⟩, fun object hMem => ?_⟩,
    fun service hMem => ?_⟩
  · exact List.forall_mem_append.mpr ⟨hAttributes (h.entities entity hMem).attributes _,
      hOperations (h.entities entity hMem).operations _⟩
  · exact hAttributes (h.valueObjects object hMem).attributes _
  · exact hAttributes (h.domainEvents object hMem).attributes _
  · exact hAttributes (h.commands object hMem).attributes _
  · exact hOperations (h.services service hMem).operations _

theorem Model.WellFormed.typeUses {model : Model} (h : model.WellFormed) :
    ∀ use ∈ model.typeUses, IsCanonicalType use.type := by
  refine List.forall_mem_flatMap.mpr (List.forall_mem_flatMap.mpr fun context hContext => ?_)
  refine List.forall_mem_map.mpr fun placed hPlaced => Aggregate.WellFormed.typeUses ?_ _
  refine (h.boundedContexts context hContext).aggregateList placed.aggregate ?_
  rw [← context.allAggregates_eq]
  exact List.mem_map_of_mem hPlaced

/-! ## What is reported of them -/

def TypeUse.finding? (use : TypeUse) : Option Finding :=
  match acceptType use.type with
  | .ok _ => none
  | .error reason => some ⟨.invalidType use.site reason, use.location⟩

theorem typeFindings_attributes (here : Location) (members : List Attribute) :
    (attributeElements here members).flatMap typeFindings =
      (members.map (Attribute.typeUse here)).filterMap TypeUse.finding? := by
  rw [attributeElements, List.flatMap_map, List.filterMap_map, List.filterMap_eq_flatMap_toList]
  refine List.flatMap_congr fun member _ => ?_
  rw [typeFindings, mentionedTypes, Function.comp_apply, List.filterMap_eq_flatMap_toList, List.flatMap_singleton]
  rfl

theorem typeFindings_operations (here : Location) (members : List Operation) :
    (operationElements here members).flatMap typeFindings =
      (members.flatMap (Operation.typeUses here)).filterMap TypeUse.finding? := by
  rw [operationElements, List.flatMap_map, List.filterMap_flatMap]
  refine List.flatMap_congr fun member _ => ?_
  rw [typeFindings, mentionedTypes, Operation.typeUses, List.filterMap_append, List.filterMap_append]
  simp only [List.filterMap_map]
  rfl

theorem typeFindings_of_mentionedTypes {element : Element} (here : Location) (h : mentionedTypes element = []) :
    typeFindings ⟨element, here⟩ = [] := by
  rw [typeFindings, h, List.filterMap_nil]

theorem typeFindings_entity (parent : Location) (entity : Entity) :
    (entity.elements parent).flatMap typeFindings = (entity.typeUses parent).filterMap TypeUse.finding? := by
  rw [Entity.elements, List.flatMap_cons, typeFindings_of_mentionedTypes _ rfl, List.nil_append, List.flatMap_append,
    typeFindings_attributes, typeFindings_operations, Entity.typeUses, List.filterMap_append]

theorem typeFindings_service (parent : Location) (service : Service) :
    (service.elements parent).flatMap typeFindings = (service.typeUses parent).filterMap TypeUse.finding? := by
  rw [Service.elements, List.flatMap_cons, typeFindings_of_mentionedTypes _ rfl, List.nil_append,
    typeFindings_operations, Service.typeUses]

/-- Value objects, domain events and commands differ in the element that stands for them and in its kind. -/
theorem typeFindings_object {element : Element} (h : mentionedTypes element = []) (kind : String) (parent : Location)
    (object : DomainObject) :
    (⟨element, parent.child kind object.name⟩ :: attributeElements (parent.child kind object.name)
      object.attributes).flatMap typeFindings = (object.typeUses kind parent).filterMap TypeUse.finding? := by
  rw [List.flatMap_cons, typeFindings_of_mentionedTypes _ h, List.nil_append, typeFindings_attributes,
    DomainObject.typeUses]

theorem typeFindings_aggregate (parent : Location) (aggregate : Aggregate) :
    (aggregate.elements parent).flatMap typeFindings =
      (aggregate.typeUses (parent.child "Aggregate" aggregate.name)).filterMap TypeUse.finding? := by
  have hValueObject (here : Location) (object : DomainObject) :=
    @typeFindings_object (.valueObject object) rfl "ValueObject" here object
  have hDomainEvent (here : Location) (object : DomainObject) :=
    @typeFindings_object (.domainEvent object) rfl "DomainEvent" here object
  have hCommand (here : Location) (object : DomainObject) :=
    @typeFindings_object (.command object) rfl "Command" here object
  rw [Aggregate.elements, List.flatMap_cons, typeFindings_of_mentionedTypes _ rfl, List.nil_append, Aggregate.typeUses]
  simp only [List.flatMap_append, List.filterMap_append, List.flatMap_assoc, List.filterMap_flatMap,
    typeFindings_entity, typeFindings_service, DomainObject.valueObjectElements, DomainObject.domainEventElements,
    DomainObject.commandElements, hValueObject, hDomainEvent, hCommand]

/-- The findings on types are those on the types of the model, one by one. -/
theorem ofCode_invalidType (model : Model) :
    model.validate.ofCode .invalidType = model.typeUses.filterMap TypeUse.finding? := by
  have hCodes : ∀ finding ∈ Rule.types.findings model, finding.code = .invalidType := by
    refine List.forall_mem_flatMap.mpr fun located _ finding hFinding => ?_
    obtain ⟨mention, -, hSome⟩ := List.mem_filterMap.mp hFinding
    split at hSome
    · cases hSome
    · cases hSome
      rfl
  have hRule : model.validate.ofCode .invalidType = ofCode .invalidType (Rule.types.findings model) :=
    ofCode_validate model .invalidType
  rw [hRule, ofCode_eq_self hCodes, Rule.findings, flatMap_elements_sited (fun _ _ => rfl) (fun _ _ => rfl) fun _ _ => rfl,
    Model.typeUses, List.filterMap_flatMap]
  exact List.flatMap_congr fun owner _ => typeFindings_aggregate owner.parent owner.placed.aggregate

/-! ## Models of documents -/

/-- The finding refuses the type for the foreign name in it. -/
def TypeUse.RefusedAs (use : TypeUse) (type : TypeRef) (finding : Finding) : Prop :=
  ∃ entry ∈ foreignTypes, sameIgnoringCase entry.1 type.baseName = true ∧
    finding = ⟨.invalidType use.site (.foreign type.examined type.baseName entry.2), use.location⟩

theorem TypeUse.finding?_of_canonical {use : TypeUse} {type : TypeRef} (hType : use.type = type.text)
    (hWord : isWord type.baseName = true) :
    (¬ IsForeign type.baseName → use.finding? = none) ∧
      (IsForeign type.baseName → ∃ finding ∈ use.finding?, use.RefusedAs type finding) := by
  rw [TypeUse.finding?, hType]
  constructor
  · intro hForeign
    rw [(acceptType_text_iff hWord).mpr hForeign]
  · intro hForeign
    obtain ⟨shape, hShape⟩ :=
      Option.ne_none_iff_exists'.mp fun hNone => foreignShape?_eq_none_iff.mp hNone hForeign
    obtain ⟨entry, hEntry, rfl⟩ := Option.map_eq_some_iff.mp hShape
    have hSame := List.find?_some hEntry
    rw [acceptType_text_of_foreignShape? hWord hShape]
    exact ⟨_, rfl, entry, List.mem_of_find?_eq_some hEntry, hSame, rfl⟩

theorem forall₂_filter_filterMap {α β : Type} {keeps : α → Prop} [DecidablePred keeps] {f : α → Option β}
    {Related : α → β → Prop} {values : List α} (hNone : ∀ value ∈ values, ¬ keeps value → f value = none)
    (hSome : ∀ value ∈ values, keeps value → ∃ found ∈ f value, Related value found) :
    List.Forall₂ Related (values.filter fun value => keeps value) (values.filterMap f) := by
  induction values with
  | nil => exact .nil
  | cons value values ih =>
    obtain ⟨hNoneHead, hNoneTail⟩ := List.forall_mem_cons.mp hNone
    obtain ⟨hSomeHead, hSomeTail⟩ := List.forall_mem_cons.mp hSome
    by_cases hKeeps : keeps value
    · obtain ⟨found, hFound, hRelated⟩ := hSomeHead hKeeps
      rw [List.filter_cons_of_pos (by simpa using hKeeps), List.filterMap_cons_some hFound]
      exact .cons hRelated (ih hNoneTail hSomeTail)
    · rw [List.filter_cons_of_neg (by simpa using hKeeps), List.filterMap_cons_none (hNoneHead hKeeps)]
      exact ih hNoneTail hSomeTail

/-- One finding for each use of a type whose name is foreign, and no other: no type is refused for its form. -/
theorem ofCode_invalidType_of_ofSource {source : String} {model : Model} (h : Model.ofSource source = .ok model) :
    ∃ read : String → TypeRef,
      (∀ use ∈ model.typeUses, use.type = (read use.type).text ∧ isWord (read use.type).baseName = true) ∧
      List.Forall₂ (fun use finding => use.RefusedAs (read use.type) finding)
        (model.typeUses.filter fun use => IsForeign (read use.type).baseName) (model.validate.ofCode .invalidType) := by
  have hCanonical : ∀ use ∈ model.typeUses, IsCanonicalType use.type := (wellFormed_of_ofSource h).typeUses
  classical
  let read : String → TypeRef := fun text => if hText : IsCanonicalType text then hText.choose else .named text
  have hRead : ∀ use ∈ model.typeUses, use.type = (read use.type).text ∧ isWord (read use.type).baseName = true := by
    intro use hUse
    have hText := hCanonical use hUse
    have hChosen : read use.type = hText.choose := dif_pos hText
    rw [hChosen]
    exact hText.choose_spec.symm
  refine ⟨read, hRead, ?_⟩
  rw [ofCode_invalidType]
  exact forall₂_filter_filterMap
    (fun use hUse => (TypeUse.finding?_of_canonical (hRead use hUse).1 (hRead use hUse).2).1)
    fun use hUse => (TypeUse.finding?_of_canonical (hRead use hUse).1 (hRead use hUse).2).2

/-- An attribute that is a list of maps, and an operation on a set of tuples. -/
def untypedOrders : String :=
  "BoundedContext Sales { Module Shop { Aggregate Orders { Entity Order { List<^Map> lines }
    Service Shipping { def Order ship(Set<tuple> parcels) } } } }"

theorem ofCode_invalidType_untypedOrders :
    ∃ model, Model.ofSource untypedOrders = .ok model ∧ (model.validate.ofCode .invalidType).length = 2 ∧
      ∃ read : String → TypeRef,
        (∀ use ∈ model.typeUses, use.type = (read use.type).text ∧ isWord (read use.type).baseName = true) ∧
        List.Forall₂ (fun use finding => use.RefusedAs (read use.type) finding)
          (model.typeUses.filter fun use => IsForeign (read use.type).baseName)
          (model.validate.ofCode .invalidType) := by
  have hModel : Model.ofSource untypedOrders = .ok {
      boundedContexts := [{
        name := "Sales"
        modules := [{
          name := "Shop"
          aggregates := [{
            name := "Orders"
            entities := [{
              name := "Order"
              attributes := [{ name := "lines", type := "List<Map>" }] }]
            services := [{
              name := "Shipping"
              operations := [{
                name := "ship"
                returnType := some "Order"
                parameters := [⟨"parcels", "Set<tuple>"⟩] }] }] }] }] }] } := by
    decide +kernel
  exact ⟨_, hModel, by decide +kernel, ofCode_invalidType_of_ofSource hModel⟩

end DomainAtlas
