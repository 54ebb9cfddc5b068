import DomainAtlas.Proofs.Model.TypeRefs
import DomainAtlas.Proofs.Model.WellNamed
import DomainAtlas.Proofs.Token.Followed
import DomainAtlas.Proofs.Validation.Elements

/-! # Types in a model

The types of a model, and the model with other types in their places. A type stands before a name in the line that
it is written in; what it is read as there is its canonical form, unless it ends in a comment, which goes on over the
name. Well-formed models have their types in canonical form.
-/
set_option autoImplicit false

namespace DomainAtlas

open Text

/-! ## Other types in place of the given ones -/

section MapTypes

variable (f : String → String)

def Attribute.mapTypes (member : Attribute) : Attribute :=
  { member with type := f member.type }

def Parameter.mapTypes (parameter : Parameter) : Parameter :=
  { parameter with type := f parameter.type }

def Operation.mapTypes (member : Operation) : Operation :=
  { member with
    returnType := member.returnType.map f
    parameters := member.parameters.map (Parameter.mapTypes f) }

def Entity.mapTypes (entity : Entity) : Entity :=
  { entity with
    attributes := entity.attributes.map (Attribute.mapTypes f)
    operations := entity.operations.map (Operation.mapTypes f) }

def DomainObject.mapTypes (object : DomainObject) : DomainObject :=
  { object with attributes := object.attributes.map (Attribute.mapTypes f) }

def Service.mapTypes (service : Service) : Service :=
  { service with operations := service.operations.map (Operation.mapTypes f) }

def Aggregate.mapTypes (aggregate : Aggregate) : Aggregate :=
  { aggregate with
    entities := aggregate.entities.map (Entity.mapTypes f)
    valueObjects := aggregate.valueObjects.map (DomainObject.mapTypes f)
    domainEvents := aggregate.domainEvents.map (DomainObject.mapTypes f)
    commands := aggregate.commands.map (DomainObject.mapTypes f)
    services := aggregate.services.map (Service.mapTypes f) }

def Module.mapTypes (module : Module) : Module :=
  { module with aggregates := module.aggregates.map (Aggregate.mapTypes f) }

def BoundedContext.mapTypes (context : BoundedContext) : BoundedContext :=
  { context with
    aggregates := context.aggregates.map (Aggregate.mapTypes f)
    modules := context.modules.map (Module.mapTypes f) }

def Model.mapTypes (model : Model) : Model :=
  { model with boundedContexts := model.boundedContexts.map (BoundedContext.mapTypes f) }

end MapTypes

section Congruence

variable {f g : String → String}

theorem map_attributes_congr {members : List Attribute} (h : ∀ member ∈ members, f member.type = g member.type) :
    members.map (Attribute.mapTypes f) = members.map (Attribute.mapTypes g) :=
  List.map_congr_left fun member hMember => by rw [Attribute.mapTypes, Attribute.mapTypes, h member hMember]

theorem map_operations_congr {members : List Operation} (h : ∀ member ∈ members,
    (∀ type ∈ member.returnType.toList, f type = g type) ∧
      ∀ type ∈ member.parameters.map (·.type), f type = g type) :
    members.map (Operation.mapTypes f) = members.map (Operation.mapTypes g) := by
  refine List.map_congr_left fun member hMember => ?_
  obtain ⟨hReturnTypes, hParameterTypes⟩ := h member hMember
  rw [List.forall_mem_map] at hParameterTypes
  have hReturn : member.returnType.map f = member.returnType.map g :=
    Option.map_congr fun type hType => hReturnTypes type (Option.mem_toList.mpr hType)
  have hParameters : member.parameters.map (Parameter.mapTypes f) = member.parameters.map (Parameter.mapTypes g) :=
    List.map_congr_left fun parameter hParameter => by
      rw [Parameter.mapTypes, Parameter.mapTypes, hParameterTypes parameter hParameter]
  rw [Operation.mapTypes, Operation.mapTypes, hReturn, hParameters]

theorem map_objects_congr {objects : List DomainObject}
    (h : ∀ object ∈ objects, ∀ member ∈ object.attributes, f member.type = g member.type) :
    objects.map (DomainObject.mapTypes f) = objects.map (DomainObject.mapTypes g) :=
  List.map_congr_left fun object hObject => by
    rw [DomainObject.mapTypes, DomainObject.mapTypes, map_attributes_congr (h object hObject)]

theorem Aggregate.mapTypes_congr {aggregate : Aggregate} (h : ∀ type ∈ aggregate.types, f type = g type) :
    aggregate.mapTypes f = aggregate.mapTypes g := by
  rw [Aggregate.types, List.forall_mem_append, List.forall_mem_map, List.forall_mem_flatMap] at h
  obtain ⟨hAttributes, hOperations⟩ := h
  simp only [Aggregate.attributes, List.forall_mem_append, List.forall_mem_flatMap] at hAttributes
  simp only [Aggregate.operations, List.forall_mem_append, List.forall_mem_flatMap] at hOperations
  obtain ⟨⟨⟨hOfEntities, hOfValueObjects⟩, hOfDomainEvents⟩, hOfCommands⟩ := hAttributes
  obtain ⟨hByEntities, hByServices⟩ := hOperations
  have hEntities : aggregate.entities.map (Entity.mapTypes f) = aggregate.entities.map (Entity.mapTypes g) :=
    List.map_congr_left fun entity hEntity => by
      rw [Entity.mapTypes, Entity.mapTypes, map_attributes_congr (hOfEntities entity hEntity),
        map_operations_congr (hByEntities entity hEntity)]
  have hServices : aggregate.services.map (Service.mapTypes f) = aggregate.services.map (Service.mapTypes g) :=
    List.map_congr_left fun service hService => by
      rw [Service.mapTypes, Service.mapTypes, map_operations_congr (hByServices service hService)]
  rw [Aggregate.mapTypes, Aggregate.mapTypes, hEntities, map_objects_congr hOfValueObjects,
    map_objects_congr hOfDomainEvents, map_objects_congr hOfCommands, hServices]

/-- What becomes of a model depends on what becomes of its own types. -/
theorem Model.mapTypes_congr {model : Model}
    (h : ∀ aggregate ∈ model.aggregateList, ∀ type ∈ aggregate.types, f type = g type) :
    model.mapTypes f = model.mapTypes g := by
  simp only [Model.aggregateList, BoundedContext.aggregateList, List.forall_mem_append, List.forall_mem_flatMap] at h
  have hAggregates {aggregates : List Aggregate}
      (hTypes : ∀ aggregate ∈ aggregates, ∀ type ∈ aggregate.types, f type = g type) :
      aggregates.map (Aggregate.mapTypes f) = aggregates.map (Aggregate.mapTypes g) :=
    List.map_congr_left fun aggregate hAggregate => Aggregate.mapTypes_congr (hTypes aggregate hAggregate)
  have hContexts : model.boundedContexts.map (BoundedContext.mapTypes f) =
      model.boundedContexts.map (BoundedContext.mapTypes g) := by
    refine List.map_congr_left fun context hContext => ?_
    have hModules : context.modules.map (Module.mapTypes f) = context.modules.map (Module.mapTypes g) :=
      List.map_congr_left fun module hModule => by
        rw [Module.mapTypes, Module.mapTypes, hAggregates ((h context hContext).2 module hModule)]
    rw [BoundedContext.mapTypes, BoundedContext.mapTypes, hAggregates (h context hContext).1, hModules]
  rw [Model.mapTypes, Model.mapTypes, hContexts]

end Congruence

section Identity

theorem Attribute.mapTypes_id : Attribute.mapTypes id = id := rfl

theorem Parameter.mapTypes_id : Parameter.mapTypes id = id := rfl

theorem Operation.mapTypes_id : Operation.mapTypes id = id := by
  funext member
  simp [Operation.mapTypes, Parameter.mapTypes_id]

theorem Entity.mapTypes_id : Entity.mapTypes id = id := by
  funext entity
  simp [Entity.mapTypes, Attribute.mapTypes_id, Operation.mapTypes_id]

theorem DomainObject.mapTypes_id : DomainObject.mapTypes id = id := by
  funext object
  simp [DomainObject.mapTypes, Attribute.mapTypes_id]

theorem Service.mapTypes_id : Service.mapTypes id = id := by
  funext service
  simp [Service.mapTypes, Operation.mapTypes_id]

theorem Aggregate.mapTypes_id : Aggregate.mapTypes id = id := by
  funext aggregate
  simp [Aggregate.mapTypes, Entity.mapTypes_id, DomainObject.mapTypes_id, Service.mapTypes_id]

theorem Module.mapTypes_id : Module.mapTypes id = id := by
  funext module
  simp [Module.mapTypes, Aggregate.mapTypes_id]

theorem BoundedContext.mapTypes_id : BoundedContext.mapTypes id = id := by
  funext context
  simp [BoundedContext.mapTypes, Aggregate.mapTypes_id, Module.mapTypes_id]

theorem Model.mapTypes_id : Model.mapTypes id = id := by
  funext model
  simp [Model.mapTypes, BoundedContext.mapTypes_id]

end Identity

/-! ## Canonical types -/

/-- The canonical form of a type that is read before a name; any other text is left as it is. -/
def canonicalType (type : String) : String :=
  match TypeRef.ofText (writtenType type) with
  | .ok read => if endsInComment (writtenType type) then type else read.text
  | .error _ => type

theorem canonicalType_eq_text {type : String} {read : TypeRef} (h : TypeRef.ofText (writtenType type) = .ok read)
    (hEnd : endsInComment (writtenType type) = false) : canonicalType type = read.text := by
  rw [canonicalType, h]
  exact if_neg (Bool.eq_false_iff.mp hEnd)

theorem canonicalType_cases (type : String) :
    canonicalType type = type ∨ ∃ read, TypeRef.ofText (writtenType type) = .ok read ∧
      endsInComment (writtenType type) = false ∧ canonicalType type = read.text := by
  cases hRead : TypeRef.ofText (writtenType type) with
  | error error => exact .inl (by rw [canonicalType, hRead])
  | ok read =>
    cases hEnd : endsInComment (writtenType type) with
    | true => exact .inl (by rw [canonicalType, hRead]; exact if_pos hEnd)
    | false => exact .inr ⟨read, rfl, rfl, canonicalType_eq_text hRead hEnd⟩

theorem IsCanonicalType.canonicalType_eq_self {type : String} (h : IsCanonicalType type) :
    canonicalType type = type := by
  obtain ⟨ref, hWord, rfl⟩ := h
  rcases canonicalType_cases ref.text with hSame | ⟨read, hRead, -, hText⟩
  · exact hSame
  · rw [TypeRef.ofText_writtenType hWord] at hRead
    cases hRead
    exact hText

/-! ## Types of well-formed elements -/

theorem Aggregate.WellFormed.attributes {aggregate : Aggregate} (h : aggregate.WellFormed) :
    ∀ member ∈ aggregate.attributes, member.WellFormed := by
  simp only [Aggregate.attributes, List.forall_mem_append, List.forall_mem_flatMap]
  exact ⟨⟨⟨fun entity hMem => (h.entities entity hMem).attributes,
    fun object hMem => (h.valueObjects object hMem).attributes⟩,
    fun object hMem => (h.domainEvents object hMem).attributes⟩,
    fun object hMem => (h.commands object hMem).attributes⟩

theorem Aggregate.WellFormed.operations {aggregate : Aggregate} (h : aggregate.WellFormed) :
    ∀ member ∈ aggregate.operations, member.WellFormed := by
  simp only [Aggregate.operations, List.forall_mem_append, List.forall_mem_flatMap]
  exact ⟨fun entity hMem => (h.entities entity hMem).operations,
    fun service hMem => (h.services service hMem).operations⟩

theorem Aggregate.WellFormed.types {aggregate : Aggregate} (h : aggregate.WellFormed) :
    ∀ text ∈ aggregate.types, IsCanonicalType text := by
  simp only [Aggregate.types, List.forall_mem_append, List.forall_mem_flatMap, List.forall_mem_map]
  refine ⟨fun member hMem => (h.attributes member hMem).type, fun member hMem => ⟨?_, ?_⟩⟩
  · exact fun text hText => (h.operations member hMem).returnType text (Option.mem_toList.mp hText)
  · exact fun parameter hParameter => ((h.operations member hMem).parameters parameter hParameter).type

theorem BoundedContext.WellFormed.aggregateList {context : BoundedContext} (h : context.WellFormed) :
    ∀ aggregate ∈ context.aggregateList, aggregate.WellFormed :=
  List.forall_mem_append.mpr ⟨h.aggregates, List.forall_mem_flatMap.mpr fun module hModule =>
    (h.modules module hModule).aggregates⟩

theorem Model.WellNamed.types {model : Model} (h : model.WellNamed) :
    ∀ aggregate ∈ model.aggregateList, ∀ text ∈ aggregate.types, IsCanonicalType text := by
  intro aggregate hMem
  obtain ⟨context, hContext, hMem⟩ := List.mem_flatMap.mp hMem
  exact ((h.boundedContexts context hContext).aggregateList aggregate hMem).types

theorem Model.WellNamed.mapTypes_eq_self {model : Model} (h : model.WellNamed) :
    model.mapTypes canonicalType = model := by
  have hSame : model.mapTypes canonicalType = model.mapTypes id :=
    Model.mapTypes_congr fun aggregate hAggregate type hType =>
      (h.types aggregate hAggregate type hType).canonicalType_eq_self
  rw [hSame, Model.mapTypes_id, id]

end DomainAtlas
