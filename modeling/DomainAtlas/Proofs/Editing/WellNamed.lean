import DomainAtlas.Proofs.Editing.Appending
import DomainAtlas.Proofs.Model.CanonicalTypes
import DomainAtlas.Proofs.Model.TypeGuard
import DomainAtlas.Proofs.Text.Words
import DomainAtlas.Proofs.Validation.Codes

/-! # Editing keeps models well-named

An edit is given texts and relationships that are not checked. What it takes over from them are words, types in
canonical form and references to what the model has, so all names of the model stay words.
-/
set_option autoImplicit false

namespace DomainAtlas

open Text

/-! ## Accepted names and types -/

theorem NameOf.isWord {raw name : String} (h : NameOf raw name) : Text.isWord name = true := by
  obtain ⟨rfl, hName⟩ := h
  exact isWord_wordOf hName

theorem TypeOf.isCanonicalType {given type : String} (h : TypeOf given type) : IsCanonicalType type := by
  obtain ⟨accepted, hAccepted, rfl⟩ := h
  exact ⟨accepted, TypeRef.isWord_baseName_of_ofText (ofText_of_acceptType hAccepted), rfl⟩

/-! ## Normal forms -/

theorem forall_right {α β : Type} {Related : α → β → Prop} {Good : β → Prop} {given : List α} {normal : List β}
    (h : List.Forall₂ Related given normal) (hGood : ∀ value result, Related value result → Good result) :
    ∀ result ∈ normal, Good result := by
  induction h with
  | nil => exact fun _ hMem => absurd hMem List.not_mem_nil
  | cons hFirst _ ih => exact List.forall_mem_cons.mpr ⟨hGood _ _ hFirst, ih⟩

theorem Attribute.NormalizesTo.wellFormed {given normal : Attribute} (h : given.NormalizesTo normal) :
    normal.WellFormed :=
  ⟨h.name.isWord, h.type.isCanonicalType⟩

theorem Parameter.NormalizesTo.wellFormed {given normal : Parameter} (h : given.NormalizesTo normal) :
    normal.WellFormed :=
  ⟨h.name.isWord, h.type.isCanonicalType⟩

theorem Operation.NormalizesTo.wellFormed {given normal : Operation} (h : given.NormalizesTo normal) :
    normal.WellFormed := by
  obtain ⟨givenName, givenType, givenParameters⟩ := given
  obtain ⟨name, type?, parameters⟩ := normal
  obtain ⟨hName, hReturn, hParameters⟩ := h
  refine ⟨hName.isWord, fun type hType => ?_, forall_right hParameters fun _ _ => Parameter.NormalizesTo.wellFormed⟩
  obtain rfl : type? = some type := hType
  cases hReturn with
  | some hReturn => exact hReturn.isCanonicalType

theorem Entity.NormalizesTo.wellFormed {given normal : Entity} (h : given.NormalizesTo normal) :
    normal.WellFormed :=
  ⟨h.name.isWord, forall_right h.attributes fun _ _ => Attribute.NormalizesTo.wellFormed,
    forall_right h.operations fun _ _ => Operation.NormalizesTo.wellFormed⟩

theorem DomainObject.NormalizesTo.wellFormed {given normal : DomainObject} (h : given.NormalizesTo normal) :
    normal.WellFormed :=
  ⟨h.name.isWord, forall_right h.attributes fun _ _ => Attribute.NormalizesTo.wellFormed⟩

theorem Service.NormalizesTo.wellFormed {given normal : Service} (h : given.NormalizesTo normal) :
    normal.WellFormed :=
  ⟨h.name.isWord, forall_right h.operations fun _ _ => Operation.NormalizesTo.wellFormed⟩

theorem forall_mem_concat {α : Type} {Good : α → Prop} {values : List α} {value : α}
    (h : ∀ other ∈ values, Good other) (hValue : Good value) : ∀ other ∈ values ++ [value], Good other :=
  List.forall_mem_append.mpr ⟨h, List.forall_mem_singleton.mpr hValue⟩

theorem Aggregate.WellFormed.append {aggregate : Aggregate} (h : aggregate.WellFormed) {given member : Member}
    (hMember : given.NormalizesTo member) : (aggregate.append member).WellFormed := by
  cases hMember with
  | entity hEntity => exact { h with entities := forall_mem_concat h.entities hEntity.wellFormed }
  | valueObject hObject => exact { h with valueObjects := forall_mem_concat h.valueObjects hObject.wellFormed }
  | domainEvent hObject => exact { h with domainEvents := forall_mem_concat h.domainEvents hObject.wellFormed }
  | command hObject => exact { h with commands := forall_mem_concat h.commands hObject.wellFormed }
  | service hService => exact { h with services := forall_mem_concat h.services hService.wellFormed }

/-! ## Replaced elements -/

/-- What holds of all values holds of the first of them, and still of all once something of which it holds is in
the place of the first. -/
theorem FirstWith.forall_replaced {α : Type} {Holds Good : α → Prop} {values front back : List α} {value : α}
    (h : FirstWith Holds values front value back) (hGood : ∀ other ∈ values, Good other) :
    Good value ∧ ∀ changed, Good changed → ∀ other ∈ front ++ changed :: back, Good other := by
  rw [h.split] at hGood
  obtain ⟨hFront, hOthers⟩ := List.forall_mem_append.mp hGood
  obtain ⟨hValue, hBack⟩ := List.forall_mem_cons.mp hOthers
  exact ⟨hValue, fun changed hChanged =>
    List.forall_mem_append.mpr ⟨hFront, List.forall_mem_cons.mpr ⟨hChanged, hBack⟩⟩⟩

theorem BoundedContext.WellFormed.replaced {context : BoundedContext} (h : context.WellFormed) {name : String}
    {target : Aggregate} {replace : Aggregate → BoundedContext} {place : Path}
    (hTarget : context.FirstAggregate name target replace place) :
    target.WellFormed ∧ ∀ changed, changed.WellFormed → (replace changed).WellFormed := by
  cases hTarget with
  | direct hFirst =>
    obtain ⟨hTarget, hReplace⟩ := hFirst.forall_replaced h.aggregates
    exact ⟨hTarget, fun changed hChanged => { h with aggregates := hReplace changed hChanged }⟩
  | inModule _ hModule hFirst =>
    obtain ⟨hOwner, hReplaceModule⟩ := hModule.forall_replaced h.modules
    obtain ⟨hTarget, hReplace⟩ := hFirst.forall_replaced hOwner.aggregates
    refine ⟨hTarget, fun changed hChanged => { h with modules := hReplaceModule _ ?_ }⟩
    exact { hOwner with aggregates := hReplace changed hChanged }

namespace Model

variable {model changed : Model}

theorem WellNamed.replaced (h : model.WellNamed) {context aggregate : String} {target : Aggregate}
    {replace : Aggregate → Model} {place : Path}
    (hTarget : model.FirstAggregate context aggregate target replace place) :
    target.WellFormed ∧ ∀ changed, changed.WellFormed → (replace changed).WellNamed := by
  cases hTarget with
  | mk hContext hFirst =>
    obtain ⟨hOwner, hReplaceContext⟩ := hContext.forall_replaced h.boundedContexts
    obtain ⟨hTarget, hReplace⟩ := hOwner.replaced hFirst
    exact ⟨hTarget, fun changed hChanged =>
      { h with boundedContexts := hReplaceContext _ (hReplace changed hChanged) }⟩

/-! ## Edits -/

theorem wellFormed_empty {name : String} (h : isWord name = true) : ({ name } : Aggregate).WellFormed :=
  ⟨h, by simp, by simp, by simp, by simp, by simp⟩

theorem WellNamed.isWord_of_hasContext (h : model.WellNamed) {name : String} (hName : model.hasContext name = true) :
    isWord name = true := by
  obtain ⟨context, hContext, rfl⟩ := List.mem_map.mp (hasContext_iff.mp hName)
  exact (h.boundedContexts context hContext).name

theorem isWord_of_hasAggregate {context : BoundedContext} (h : context.WellFormed) {name : String}
    (hName : context.hasAggregate name = true) : isWord name = true := by
  obtain ⟨aggregate, hMem, rfl⟩ := List.mem_map.mp (hasAggregate_iff.mp hName)
  exact (h.aggregateList aggregate hMem).name

/-- A relationship that is accepted refers to what is there, and that has words for names. -/
theorem WellNamed.of_addRelationship (h : model.WellNamed) {relationship : Relationship} {path : Path}
    (hAdd : model.addRelationship relationship = .ok (changed, path)) : relationship.WellNamed := by
  obtain ⟨hFirst, hSecond, hExposed, -, -⟩ := addRelationship_eq_ok hAdd
  cases relationship with
  | symmetric kind first second => exact ⟨h.isWord_of_hasContext hFirst, h.isWord_of_hasContext hSecond⟩
  | directed directed =>
    obtain ⟨upstream, hUpstream, hKnown⟩ := hExposed directed rfl
    have hContext := h.boundedContexts _ (mem_of_findContext? hUpstream)
    exact ⟨h.isWord_of_hasContext hFirst, h.isWord_of_hasContext hSecond, fun name hName =>
      isWord_of_hasAggregate hContext (hKnown name hName)⟩

theorem WellNamed.addRelationship (h : model.WellNamed) {relationship : Relationship} {path : Path}
    (hAdd : model.addRelationship relationship = .ok (changed, path)) : changed.WellNamed := by
  have hRelationship := h.of_addRelationship hAdd
  obtain ⟨-, -, -, rfl, -⟩ := addRelationship_eq_ok hAdd
  have hMap : (model.contextMap.getD {}).WellNamed := by
    cases hMap : model.contextMap with
    | none => exact ⟨by simp, by simp, by simp, by simp⟩
    | some map => exact h.contextMap map hMap
  refine { h with contextMap := ?_ }
  rintro _ ⟨⟩
  exact { hMap with relationships := forall_mem_concat hMap.relationships hRelationship }

/-- One edit. What it appends is in normal form, and what it appends to was well-formed. -/
theorem WellNamed.edit (h : model.WellNamed) {edit : Edit} {paths : List Path}
    (hEdit : model.edit edit = .ok (changed, paths)) : changed.WellNamed := by
  cases appends_of_edit hEdit with
  | boundedContext hName =>
    have hNew : ({ name := _ } : BoundedContext).WellFormed := ⟨hName.isWord, by simp, by simp⟩
    exact { h with boundedContexts := forall_mem_concat h.boundedContexts hNew }
  | module hName hOwner =>
    obtain ⟨hContext, hReplace⟩ := hOwner.forall_replaced h.boundedContexts
    refine { h with boundedContexts := hReplace _ ?_ }
    exact { hContext with modules := forall_mem_concat hContext.modules ⟨hName.isWord, by simp⟩ }
  | aggregate hName hOwner =>
    obtain ⟨hContext, hReplace⟩ := hOwner.forall_replaced h.boundedContexts
    refine { h with boundedContexts := hReplace _ ?_ }
    exact { hContext with
      aggregates := forall_mem_concat hContext.aggregates (wellFormed_empty hName.isWord) }
  | moduleAggregate hName hOwner hTarget =>
    obtain ⟨hContext, hReplace⟩ := hOwner.forall_replaced h.boundedContexts
    obtain ⟨hModule, hReplaceModule⟩ := hTarget.forall_replaced hContext.modules
    refine { h with boundedContexts := hReplace _ { hContext with modules := hReplaceModule _ ?_ } }
    exact { hModule with aggregates := forall_mem_concat hModule.aggregates (wellFormed_empty hName.isWord) }
  | member hNormal hTarget =>
    obtain ⟨hAggregate, hReplace⟩ := h.replaced hTarget
    exact hReplace _ (hAggregate.append hNormal)
  | entities hNormal hTarget =>
    obtain ⟨hAggregate, hReplace⟩ := h.replaced hTarget
    have hAdded := forall_right hNormal fun _ _ => Entity.NormalizesTo.wellFormed
    exact hReplace _ { hAggregate with entities := List.forall_mem_append.mpr ⟨hAggregate.entities, hAdded⟩ }
  | valueObjects hNormal hTarget =>
    obtain ⟨hAggregate, hReplace⟩ := h.replaced hTarget
    have hAdded := forall_right hNormal fun _ _ => DomainObject.NormalizesTo.wellFormed
    exact hReplace _ { hAggregate with valueObjects := List.forall_mem_append.mpr ⟨hAggregate.valueObjects, hAdded⟩ }
  | noEntities => exact h
  | noValueObjects => exact h
  | relationship =>
    obtain ⟨path, hAdd, -⟩ := singleOutcome_eq_ok hEdit
    exact h.addRelationship hAdd

theorem WellNamed.after (h : model.WellNamed) (edit : Edit) : (model.after edit).WellNamed := by
  unfold Model.after
  split
  · rename_i changed paths hEdit
    exact h.edit hEdit
  · exact h

theorem WellNamed.afterAll (h : model.WellNamed) (edits : List Edit) : (model.afterAll edits).WellNamed := by
  induction edits generalizing model with
  | nil => exact h
  | cons edit edits ih => exact ih (h.after edit)

end Model

/-! ## From the beginning -/

/-- What editing starts from: a model without elements, or the model of a source. -/
def Model.IsInitial (model : Model) : Prop :=
  model = {} ∨ ∃ source, Model.ofSource source = .ok model

theorem Model.IsInitial.wellFormed {model : Model} (h : model.IsInitial) : model.WellFormed := by
  rcases h with rfl | ⟨source, hSource⟩
  · exact ⟨rfl, by simp, by simp⟩
  · exact wellFormed_of_ofSource hSource

theorem Model.IsInitial.wellNamed_afterAll {model : Model} (h : model.IsInitial) (edits : List Edit) :
    (model.afterAll edits).WellNamed :=
  (wellFormed_iff.mp h.wellFormed).1.afterAll edits

theorem wellNamed_and_typed_afterAll {start : Model} (hStart : start.IsInitial) (edits : List Edit) :
    (start.afterAll edits).WellNamed ∧
      ∀ aggregate ∈ (start.afterAll edits).aggregateList, ∀ text ∈ aggregate.types,
        ∃ type : TypeRef, isWord type.baseName = true ∧ text = type.text ∧
          TypeRef.ofText (writtenType text) = .ok type := by
  have hNamed := hStart.wellNamed_afterAll edits
  refine ⟨hNamed, fun aggregate hAggregate text hText => ?_⟩
  obtain ⟨type, hWord, rfl⟩ := hNamed.types aggregate hAggregate text hText
  exact ⟨type, hWord, rfl, TypeRef.ofText_writtenType hWord⟩

/-- The start is read from a source, and a keyword is the name in a type. -/
theorem wellNamed_and_typed_afterAll_sales :
    ({ boundedContexts := [{ name := "Sales", aggregates := [{ name := "Orders" }] }] } : Model).IsInitial ∧
      (({ boundedContexts := [{ name := "Sales", aggregates := [{ name := "Orders" }] }] } : Model).afterAll
        [.member "Sales" "Orders" (.valueObject { name := "Order item", attributes :=
          [{ name := "lines", type := "List<Aggregate>" }] })]).WellNamed ∧
      ∃ type : TypeRef, isWord type.baseName = true ∧ "List<Aggregate>" = type.text ∧
        TypeRef.ofText (writtenType "List<Aggregate>") = .ok type := by
  have hStart :
      ({ boundedContexts := [{ name := "Sales", aggregates := [{ name := "Orders" }] }] } : Model).IsInitial :=
    .inr ⟨"BoundedContext Sales { Aggregate Orders { } }", by decide +kernel⟩
  have hRun :
      (({ boundedContexts := [{ name := "Sales", aggregates := [{ name := "Orders" }] }] } : Model).afterAll
        [.member "Sales" "Orders" (.valueObject { name := "Order item", attributes :=
          [{ name := "lines", type := "List<Aggregate>" }] })]).aggregateList =
        [{ name := "Orders", valueObjects := [{ name := "Orderitem", attributes :=
          [{ name := "lines", type := "List<Aggregate>" }] }] }] := by
    decide +kernel
  obtain ⟨hNamed, hTyped⟩ := wellNamed_and_typed_afterAll hStart _
  rw [hRun, List.forall_mem_singleton] at hTyped
  exact ⟨hStart, hNamed, hTyped "List<Aggregate>" (by decide)⟩

end DomainAtlas
