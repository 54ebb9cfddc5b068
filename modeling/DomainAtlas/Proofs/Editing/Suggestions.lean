import DomainAtlas.Proofs.Editing.Batches
import DomainAtlas.Proofs.Editing.Refusals
import DomainAtlas.Proofs.Editing.WellNamed

/-! # Names that are suggested

A suggested name is put together from the name of the context, or from a reserved word, without a look at the model.
It is never empty. An edit that takes it up is refused for its name exactly if the name is reserved or taken, and a name
with the context in front may be either.
-/
set_option autoImplicit false

namespace DomainAtlas

open Text (wordOf)

/-! ## Names that are at fault -/

namespace NamedEdit

/-- The name is in use where the element would be added, or anywhere if it is shared by the model. -/
def Taken (model : Model) : NamedEdit → String → Prop
  | .aggregate context _, name =>
    ∃ placed, model.findContext? context = some placed ∧ placed.context.hasAggregate name = true
  | .member context owner content, name =>
    (∃ placed target, model.requireAggregate context owner = .ok (placed, target) ∧
      name ∈ content.kind.names target.aggregate) ∨
      content.kind.sharesNames = true ∧ name ∈ model.objectNames

/-- The name may not be borne by the element, whatever else is brought with it. -/
def Barred (model : Model) (named : NamedEdit) (name : String) : Prop :=
  reservedSpelling? name ≠ none ∨ named.Taken model name

end NamedEdit

/-- The name `raw` of the element is why it is refused. -/
inductive Rejection.Blames (raw : String) : Rejection → Prop
  | emptyName : Blames raw (.emptyName raw)
  | reservedName (name reserved : String) : Blames raw (.reservedName name reserved)
  | duplicate (kind : Keyword) (name : String) (container : Container) : Blames raw (.duplicate kind name container)
  | nameInUse (name : String) (existing : Occurrence) (context : String) :
      Blames raw (.nameInUse name existing context)

namespace Model

variable {model : Model} {named : NamedEdit} {raw : String}

theorem not_barred_of_edit {result : Model × List Path} (h : model.edit (named.edit raw) = .ok result) :
    ¬ named.Barred model (wordOf raw) := by
  obtain ⟨changed, paths⟩ := result
  cases named with
  | aggregate context module? =>
    obtain ⟨path, hAdd, -⟩ := singleOutcome_eq_ok h
    obtain ⟨name, placed, _, hName, hAllowed, hContext, hNew, -⟩ := addAggregate_eq_ok hAdd
    obtain ⟨rfl, -⟩ := checkedName_eq_ok.mp hName
    rintro (hReserved | ⟨other, hOther, hTaken⟩)
    · exact hReserved hAllowed
    · rw [hContext] at hOther
      cases hOther
      exact absurd hTaken (by simp [hNew])
  | member context aggregate content =>
    obtain ⟨path, hAdd, -⟩ := singleOutcome_eq_ok h
    obtain ⟨prepared, hPrepared, -⟩ := bind_eq_ok.mp hAdd
    obtain ⟨_, placed, target, hName, hAllowed, -, -, hContext, hTarget, hNew, -, hFirst⟩ := prepare_eq_ok hPrepared
    rw [Member.name_rename] at hName
    rw [(checkedName_eq_ok.mp hName).1] at hAllowed hNew hFirst
    rw [Member.kind_rename] at hNew hFirst
    rintro (hReserved | ⟨other, found, hOther, hTaken⟩ | ⟨hShares, hTaken⟩)
    · exact hReserved hAllowed
    · rw [requireAggregate_eq_ok.mpr ⟨hContext, hTarget⟩] at hOther
      cases hOther
      exact hNew hTaken
    · exact firstOccurrence?_eq_none_iff.mp (hFirst hShares) hTaken

end Model

namespace NamedEdit

variable {model : Model} {named : NamedEdit} {raw : String} {rejection : Rejection}

/-- A name is only blamed if it is barred. -/
theorem Refused.barred (h : named.Refused model raw rejection) (hBlames : rejection.Blames raw)
    (hName : wordOf raw ≠ "") : named.Barred model (wordOf raw) := by
  cases h with
  | emptyName hEmpty => exact absurd hEmpty hName
  | reservedName hReserved => exact .inl (by simp [hReserved])
  | content hContent =>
    cases Member.ofContent_of_normalize hContent with
    | emptyName hEmpty =>
      cases hBlames
      exact absurd hEmpty hName
    | invalidType site reason => cases hBlames
  | noContext => cases hBlames
  | noModule => cases hBlames
  | noTarget hTarget => rcases Model.requireAggregate_eq_error hTarget with rfl | rfl <;> cases hBlames
  | repeatedAggregate hContext hTaken => exact .inr ⟨_, hContext, hTaken⟩
  | repeatedMember hTarget hTaken => exact .inr (.inl ⟨_, _, hTarget, hTaken⟩)
  | nameInUse _ _ _ hShares hFirst =>
    refine .inr (.inr ⟨hShares, Decidable.not_not.mp fun hFree => ?_⟩)
    rw [Model.firstOccurrence?_eq_none_iff.mpr hFree] at hFirst
    cases hFirst

/-- An element whose name was in use could be added where it was meant to go, so that another name is all that may be
blamed. -/
theorem Refused.blames_of_nameInUse {other name context : String} {existing : Occurrence}
    (h : named.Refused model raw (.nameInUse name existing context)) (hAgain : named.Refused model other rejection) :
    rejection.Blames other := by
  cases h with
  | content hContent => cases Member.ofContent_of_normalize hContent
  | noTarget hTarget => rcases Model.requireAggregate_eq_error hTarget with h | h <;> cases h
  | nameInUse _ hContent hTarget _ _ =>
    cases hAgain with
    | emptyName => exact .emptyName
    | reservedName => exact .reservedName ..
    | content hError =>
      rw [hContent] at hError
      cases hError
    | noTarget hError =>
      rw [hTarget] at hError
      cases hError
    | repeatedMember => exact .duplicate ..
    | nameInUse => exact .nameInUse ..

end NamedEdit

/-! ## What is suggested -/

/-- Nothing that stands in front of a word takes it away. -/
theorem wordOf_append_ne_empty {text raw : String} (h : wordOf raw ≠ "") : wordOf (text ++ wordOf raw) ≠ "" := by
  intro hEmpty
  obtain ⟨c, cs, hList, -, hAll⟩ := isWordChars_iff.mp (isWord_wordOf h)
  rw [wordOf_eq_empty_iff, String.toList_append, List.filter_append, hList] at hEmpty
  have hNone := (List.append_eq_nil_iff.mp hEmpty).2
  rw [List.filter_cons_of_pos (hAll c (hList ▸ List.mem_cons_self))] at hNone
  cases hNone

theorem wordOf_item {reserved : String} (h : reserved ∈ reservedObjectNames) :
    wordOf (reserved ++ "Item") ≠ "" ∧ reservedSpelling? (wordOf (reserved ++ "Item")) = none := by
  have hItems : (reservedObjectNames.all fun reserved => wordOf (reserved ++ "Item") != "" &&
      (reservedSpelling? (wordOf (reserved ++ "Item"))).isNone) = true := by
    decide +kernel
  have hItem := List.all_eq_true.mp hItems reserved h
  rw [Bool.and_eq_true, bne_iff_ne, Option.isNone_iff_eq_none] at hItem
  exact hItem

theorem mem_reservedObjectNames {name reserved : String} (h : reservedSpelling? name = some reserved) :
    reserved ∈ reservedObjectNames := by
  rw [reservedSpelling?, reservedObjectName?] at h
  exact List.mem_of_find?_eq_some h

/-- The refusals that come with another name for the element. -/
inductive Rejection.OffersName : Rejection → Prop
  | reservedName (name reserved : String) : OffersName (.reservedName name reserved)
  | nameInUse (name : String) (existing : Occurrence) (context : String) :
      OffersName (.nameInUse name existing context)

theorem NamedEdit.Refused.exists_suggestion {model : Model} {named : NamedEdit} {raw : String} {rejection : Rejection}
    (h : named.Refused model raw rejection) (hOffers : rejection.OffersName) :
    ∃ suggested, rejection.suggestion? = some suggested ∧ wordOf suggested ≠ "" ∧
      ∀ name reserved, rejection = .reservedName name reserved → reservedSpelling? (wordOf suggested) = none := by
  cases h with
  | reservedName hReserved =>
    rename_i reserved
    obtain ⟨hName, hAllowed⟩ := wordOf_item (mem_reservedObjectNames hReserved)
    exact ⟨reserved ++ "Item", rfl, hName, fun _ _ _ => hAllowed⟩
  | nameInUse hName =>
    refine ⟨_, rfl, wordOf_append_ne_empty hName, fun _ _ hSame => ?_⟩
    cases hSame
  | content hContent => cases Member.ofContent_of_normalize hContent <;> cases hOffers
  | noTarget hTarget => rcases Model.requireAggregate_eq_error hTarget with rfl | rfl <;> cases hOffers
  | _ => cases hOffers

/-- An addition that is refused with another name on offer may be repeated under that name, which is not empty. It is
then refused for the name only if the name is barred, and if it is barred it is refused. In place of a reserved name no
reserved one is offered; where the old name was in use, nothing but the new name can be at fault. -/
theorem refused_under_suggestion {model : Model} {named : NamedEdit} {raw : String} {rejection : Rejection}
    (h : model.edit (named.edit raw) = .error (.rejected rejection)) (hOffers : rejection.OffersName) :
    ∃ suggested, (EditError.rejected rejection).suggestion? = some suggested ∧ wordOf suggested ≠ "" ∧
      (∀ again, model.edit (named.edit suggested) = .error (.rejected again) → again.Blames suggested →
        named.Barred model (wordOf suggested)) ∧
      (named.Barred model (wordOf suggested) →
        ∃ again, model.edit (named.edit suggested) = .error (.rejected again)) ∧
      (∀ name reserved, rejection = .reservedName name reserved → reservedSpelling? (wordOf suggested) = none) ∧
      ∀ name existing context, rejection = .nameInUse name existing context →
        ∀ again, model.edit (named.edit suggested) = .error (.rejected again) → again.Blames suggested := by
  have hRefused := Model.refused_of_edit h
  obtain ⟨suggested, hSuggested, hName, hReserved⟩ := hRefused.exists_suggestion hOffers
  refine ⟨suggested, hSuggested, hName, fun again hAgain hBlames => ?_, fun hBarred => ?_, hReserved, ?_⟩
  · exact (Model.refused_of_edit hAgain).barred hBlames hName
  · rcases model.ok_or_rejected named suggested with ⟨result, hResult⟩ | hAgain
    · exact absurd hBarred (Model.not_barred_of_edit hResult)
    · exact hAgain
  · rintro name existing context rfl again hAgain
    exact hRefused.blames_of_nameInUse (Model.refused_of_edit hAgain)

/-- An identifier that another context has already. -/
theorem refused_under_suggestion_orderId :
    ({ boundedContexts :=
        [{ name := "Sales", aggregates := [{ name := "Orders", valueObjects := [{ name := "OrderId" }] }] },
          { name := "Billing", aggregates := [{ name := "Invoices" }] }] } : Model).edit
          (.member "Billing" "Invoices" (.valueObject { name := "OrderId" })) =
        .error (.rejected (.nameInUse "OrderId"
          ⟨.valueObject, "Sales", Location.ofAggregate "Sales" none "Orders"⟩ "Billing")) ∧
      ∀ again, ({ boundedContexts :=
          [{ name := "Sales", aggregates := [{ name := "Orders", valueObjects := [{ name := "OrderId" }] }] },
            { name := "Billing", aggregates := [{ name := "Invoices" }] }] } : Model).edit
            (.member "Billing" "Invoices" (.valueObject { name := "BillingOrderId" })) = .error (.rejected again) →
        again.Blames "BillingOrderId" := by
  have hEdit : ({ boundedContexts :=
        [{ name := "Sales", aggregates := [{ name := "Orders", valueObjects := [{ name := "OrderId" }] }] },
          { name := "Billing", aggregates := [{ name := "Invoices" }] }] } : Model).edit
        ((NamedEdit.member "Billing" "Invoices" (.valueObject { name := "" })).edit "OrderId") =
      .error (.rejected (.nameInUse "OrderId"
        ⟨.valueObject, "Sales", Location.ofAggregate "Sales" none "Orders"⟩ "Billing")) := by
    rfl
  obtain ⟨suggested, hSuggested, -, -, -, -, hBlames⟩ := refused_under_suggestion hEdit (.nameInUse ..)
  cases hSuggested
  exact ⟨hEdit, hBlames _ _ _ rfl⟩

/-- A name with its context in front may be a reserved word. -/
theorem not_accepted_boundedContext :
    ¬ ∀ (model : Model) (named : NamedEdit) (raw : String) (rejection again : Rejection) (suggested : String),
      model.edit (named.edit raw) = .error (.rejected rejection) → rejection.OffersName →
        (EditError.rejected rejection).suggestion? = some suggested →
          model.edit (named.edit suggested) = .error (.rejected again) → ¬ again.Blames suggested := by
  intro h
  exact h
    { boundedContexts :=
        [{ name := "Sales", aggregates := [{ name := "Orders", valueObjects := [{ name := "Context" }] }] },
          { name := "Bounded", aggregates := [{ name := "Terms" }] }] }
    (.member "Bounded" "Terms" (.valueObject { name := "" })) "Context" _ _ _ rfl (.nameInUse ..) rfl rfl
    (.reservedName ..)

end DomainAtlas
