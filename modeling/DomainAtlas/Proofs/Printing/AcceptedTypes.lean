import DomainAtlas.Proofs.Model.TypeGuard
import DomainAtlas.Proofs.Printing.RoundTrip
import DomainAtlas.Proofs.Validation.Keeping

/-! # Accepted types in documents

An accepted type reads back in canonical form, wherever in a model it stands, as long as its written form does not end
in a comment. Where it does, the comment takes in the rest of the line: neither the name of an attribute nor its marks
are read.
-/
set_option autoImplicit false

namespace DomainAtlas

open Text Printer

/-! ## Places for an attribute -/

/-- The aggregates that differ in one attribute only. -/
inductive Aggregate.AttributeSlot : (Attribute → Aggregate) → Prop
  | entity (aggregate : Aggregate) (entity : Entity) (front back : List Entity) (before after : List Attribute) :
      AttributeSlot fun member =>
        { aggregate with entities := front ++ { entity with attributes := before ++ member :: after } :: back }
  | valueObject (aggregate : Aggregate) (object : DomainObject) (front back : List DomainObject)
      (before after : List Attribute) :
      AttributeSlot fun member =>
        { aggregate with valueObjects := front ++ { object with attributes := before ++ member :: after } :: back }
  | domainEvent (aggregate : Aggregate) (object : DomainObject) (front back : List DomainObject)
      (before after : List Attribute) :
      AttributeSlot fun member =>
        { aggregate with domainEvents := front ++ { object with attributes := before ++ member :: after } :: back }
  | command (aggregate : Aggregate) (object : DomainObject) (front back : List DomainObject)
      (before after : List Attribute) :
      AttributeSlot fun member =>
        { aggregate with commands := front ++ { object with attributes := before ++ member :: after } :: back }

/-- The bounded contexts that differ in one attribute only. -/
inductive BoundedContext.AttributeSlot : (Attribute → BoundedContext) → Prop
  | direct (context : BoundedContext) (front back : List Aggregate) {slot : Attribute → Aggregate}
      (h : Aggregate.AttributeSlot slot) :
      AttributeSlot fun member => { context with aggregates := front ++ slot member :: back }
  | inModule (context : BoundedContext) (module : Module) (before after : List Module) (front back : List Aggregate)
      {slot : Attribute → Aggregate} (h : Aggregate.AttributeSlot slot) :
      AttributeSlot fun member =>
        { context with modules := before ++ { module with aggregates := front ++ slot member :: back } :: after }

/-- The models that differ in one attribute only. -/
inductive Model.AttributeSlot : (Attribute → Model) → Prop
  | context (model : Model) (front back : List BoundedContext) {slot : Attribute → BoundedContext}
      (h : BoundedContext.AttributeSlot slot) :
      AttributeSlot fun member => { model with boundedContexts := front ++ slot member :: back }

section AttributeSlot

variable {f : String → String} {given meant : Attribute}

theorem Aggregate.AttributeSlot.mapTypes_eq {slot : Attribute → Aggregate} (h : AttributeSlot slot)
    (hSame : given.mapTypes f = meant.mapTypes f) : (slot given).mapTypes f = (slot meant).mapTypes f := by
  cases h <;> simp [Aggregate.mapTypes, Entity.mapTypes, DomainObject.mapTypes, hSame]

theorem BoundedContext.AttributeSlot.mapTypes_eq {slot : Attribute → BoundedContext} (h : AttributeSlot slot)
    (hSame : given.mapTypes f = meant.mapTypes f) : (slot given).mapTypes f = (slot meant).mapTypes f := by
  cases h with
  | direct _ _ _ h => simp [BoundedContext.mapTypes, h.mapTypes_eq hSame]
  | inModule _ _ _ _ _ _ h => simp [BoundedContext.mapTypes, Module.mapTypes, h.mapTypes_eq hSame]

theorem Model.AttributeSlot.mapTypes_eq {slot : Attribute → Model} (h : AttributeSlot slot)
    (hSame : given.mapTypes f = meant.mapTypes f) : (slot given).mapTypes f = (slot meant).mapTypes f := by
  cases h with
  | context _ _ _ h => simp [Model.mapTypes, h.mapTypes_eq hSame]

end AttributeSlot

/-! ## Types that are read -/

theorem ofSource_print_of_mapTypes_eq {model meant : Model} (h : model.mapTypes canonicalType = meant)
    (hWell : meant.WellFormed) (width : Nat) : Model.ofSource (model.print width) = .ok meant := by
  obtain ⟨hNamed, hDistinct⟩ := Model.wellFormed_iff.mp hWell
  rw [ofSource_print_of_mapTypes (h ▸ hNamed), h, Model.distinctPatterns_eq_self_iff.mpr hDistinct]

theorem ofSource_print_attributeSlot {given : String} {type : TypeRef}
    (h : TypeRef.ofText (writtenType given) = .ok type) (hEnd : endsInComment (writtenType given) = false)
    {slot : Attribute → Model} (hSlot : Model.AttributeSlot slot)
    {name : String} {key nullable : Bool} (hWell : (slot ⟨name, type.text, key, nullable⟩).WellFormed) (width : Nat) :
    Model.ofSource ((slot ⟨name, given, key, nullable⟩).print width) =
      .ok (slot ⟨name, type.text, key, nullable⟩) := by
  have hMeant : IsCanonicalType type.text := ⟨type, TypeRef.isWord_baseName_of_ofText h, rfl⟩
  have hSame : Attribute.mapTypes canonicalType ⟨name, given, key, nullable⟩ =
      Attribute.mapTypes canonicalType ⟨name, type.text, key, nullable⟩ := by
    rw [Attribute.mapTypes, Attribute.mapTypes, canonicalType_eq_text h hEnd, hMeant.canonicalType_eq_self]
  refine ofSource_print_of_mapTypes_eq ?_ hWell width
  rw [hSlot.mapTypes_eq hSame, (Model.wellFormed_iff.mp hWell).1.mapTypes_eq_self]

theorem ofSource_print_of_lacks_invalidType {model : Model} {f : String → String}
    (hForm : ∀ given type, acceptType given = .ok type → f given = type.text) (hWell : (model.mapTypes f).WellFormed)
    (h : Lacks .invalidType model.validate.findings)
    (hEnd : ∀ aggregate ∈ model.aggregateList, ∀ given ∈ aggregate.types, endsInComment (writtenType given) = false)
    (width : Nat) : Model.ofSource (model.print width) = .ok (model.mapTypes f) := by
  have hAccepted : ∀ aggregate ∈ model.aggregateList, ∀ given ∈ aggregate.types,
      ∃ type, acceptType given = .ok type := lacks_validate_iff_keeps.mp h
  refine ofSource_print_of_mapTypes_eq (Model.mapTypes_congr ?_) hWell width
  intro aggregate hAggregate given hGiven
  obtain ⟨type, hType⟩ := hAccepted aggregate hAggregate given hGiven
  have hClosed := hEnd aggregate hAggregate given hGiven
  rw [canonicalType_eq_text (ofText_of_acceptType hType) hClosed, hForm given type hType]

/-! ## Types that end in a comment -/

theorem ne_newline_of_writtenMemberName {name : String} (h : isWord name = true) :
    ∀ c ∈ (writtenMemberName name).toList, (c != '\n') = true := by
  have hWord : ∀ c ∈ name.toList, (c != '\n') = true := fun c hc =>
    bne_iff_ne.mpr (ne_of_isWordChar (isWordChar_of_mem_word h hc) (by decide))
  unfold writtenMemberName
  split
  · rw [String.toList_append, List.forall_mem_append]
    exact ⟨List.all_eq_true.mp rfl, hWord⟩
  · exact hWord

/-- The line of an attribute whose written type ends in a comment says no more than the type. -/
theorem spells_attributeLine_of_endsInComment {given : String} {type : TypeRef}
    (h : TypeRef.ofText (writtenType given) = .ok type) (hEnd : endsInComment (writtenType given) = true)
    {name : String} (hName : isWord name = true) (key nullable : Bool) :
    Spells anyText (attributeLine ⟨name, given, key, nullable⟩ ++ "\n") type.tokens := by
  obtain ⟨tokens, hScans, hType⟩ := TypeRef.ofText_eq_ok.mp h
  rw [Phrase.eq_tokens_of_typeRef hType] at hScans
  intro rest others _ hOthers
  have hKey : ∀ c ∈ (if key then " key" else "").toList, (c != '\n') = true :=
    List.all_eq_true.mp (by cases key <;> rfl)
  have hNullable : ∀ c ∈ (if nullable then " nullable" else "").toList, (c != '\n') = true :=
    List.all_eq_true.mp (by cases nullable <;> rfl)
  have hLine : ∀ c ∈ ' ' :: ((writtenMemberName name).toList ++ ((if key then " key" else "").toList
      ++ (if nullable then " nullable" else "").toList)), (c != '\n') = true := by
    rw [List.forall_mem_cons, List.forall_mem_append, List.forall_mem_append]
    exact ⟨by decide, ne_newline_of_writtenMemberName hName, hKey, hNullable⟩
  have hComment := hScans.append_comment hEnd hLine (scans_newline hOthers)
  simpa [attributeLine, typedName, String.toList_append] using hComment

/-! ## Accepted types -/

theorem ofSource_print_of_acceptType (width : Nat) :
    (∀ {given : String} {type : TypeRef}, acceptType given = .ok type → endsInComment (writtenType given) = false →
      ∀ {slot : Attribute → Model}, Model.AttributeSlot slot → ∀ {name : String} {key nullable : Bool},
        (slot ⟨name, type.text, key, nullable⟩).WellFormed →
          Model.ofSource ((slot ⟨name, given, key, nullable⟩).print width) =
            .ok (slot ⟨name, type.text, key, nullable⟩)) ∧
    (∀ {model : Model} {f : String → String}, (∀ given type, acceptType given = .ok type → f given = type.text) →
      (model.mapTypes f).WellFormed → Lacks .invalidType model.validate.findings →
        (∀ aggregate ∈ model.aggregateList, ∀ given ∈ aggregate.types, endsInComment (writtenType given) = false) →
          Model.ofSource (model.print width) = .ok (model.mapTypes f)) ∧
    (∀ {given : String} {type : TypeRef}, acceptType given = .ok type → endsInComment (writtenType given) = true →
      ∀ {name : String}, isWord name = true → ∀ key nullable : Bool,
        Spells anyText (attributeLine ⟨name, given, key, nullable⟩ ++ "\n") type.tokens) := by
  refine ⟨?_, ?_, ?_⟩
  · intro given type hAccepted hEnd slot hSlot name key nullable hWell
    exact ofSource_print_attributeSlot (ofText_of_acceptType hAccepted) hEnd hSlot hWell width
  · intro model f hForm hWell hLacks hEnd
    exact ofSource_print_of_lacks_invalidType hForm hWell hLacks hEnd width
  · intro given type hAccepted hEnd name hName key nullable
    exact spells_attributeLine_of_endsInComment (ofText_of_acceptType hAccepted) hEnd hName key nullable

/-- An entity with one attribute. -/
def orderWith (member : Attribute) : Model :=
  { boundedContexts := [{ name := "Sales", aggregates := [{ name := "Orders", entities :=
    [{ name := "Order", isRoot := true, attributes := [member] }] }] }] }

theorem attributeSlot_orderWith : Model.AttributeSlot orderWith :=
  .context {} [] [] (.direct { name := "Sales" } [] []
    (.entity { name := "Orders" } { name := "Order", isRoot := true } [] [] [] []))

/-- A keyword is the name of the attribute and, behind a caret, of its type; a comment that is closed does no harm. -/
theorem ofSource_print_escapedEntity :
    acceptType "^Entity /* kept */" = .ok (.named "Entity") ∧
      endsInComment (writtenType "^Entity /* kept */") = false ∧
      Model.ofSource ((orderWith ⟨"key", "^Entity /* kept */", true, false⟩).print 4) =
        .ok (orderWith ⟨"key", "Entity", true, false⟩) := by
  have hAccepted : acceptType "^Entity /* kept */" = .ok (.named "Entity") := by decide +kernel
  have hEnd : endsInComment (writtenType "^Entity /* kept */") = false := by decide +kernel
  have hWell : (orderWith ⟨"key", "Entity", true, false⟩).WellFormed := wellFormed_of_ofSource
    (show Model.ofSource
      "BoundedContext Sales { Aggregate Orders { Entity Order { aggregateRoot ^Entity ^key key } } }" = _ by
        decide +kernel)
  exact ⟨hAccepted, hEnd, (ofSource_print_of_acceptType 4).1 hAccepted hEnd attributeSlot_orderWith hWell⟩

/-- The name and the mark of an attribute are lost in a comment, and the model does not read back. -/
theorem ofSource_print_commentedType :
    acceptType "String // note" = .ok (.named "String") ∧ Model.AttributeSlot orderWith ∧
      (orderWith ⟨"id", "String", true, false⟩).WellFormed ∧
      (Model.ofSource ((orderWith ⟨"id", "String // note", true, false⟩).print 4)).toOption = none := by
  have hWell : (orderWith ⟨"id", "String", true, false⟩).WellFormed := wellFormed_of_ofSource
    (show Model.ofSource
      "BoundedContext Sales { Aggregate Orders { Entity Order { aggregateRoot String id key } } }" = _ by
        decide +kernel)
  exact ⟨by decide +kernel, attributeSlot_orderWith, hWell, by decide +kernel⟩

end DomainAtlas
