import DomainAtlas.Proofs.Editing.NormalForms

/-! # Why an edit is refused

The checks of an addition of one element, in the order in which they are made, each with what it found when it fails.
The name of the element is checked before and after what the element holds, and apart from it.
-/
set_option autoImplicit false

namespace DomainAtlas

open Text (wordOf)

/-! ## How checks fail -/

section Outcomes

variable {ε α β : Type} {error : ε}

theorem bind_eq_error {x : Except ε α} {next : α → Except ε β} :
    x >>= next = .error error ↔ x = .error error ∨ ∃ value, x = .ok value ∧ next value = .error error := by
  cases x with
  | error other =>
    constructor
    · intro h
      cases h
      exact .inl rfl
    · rintro (h | ⟨value, hValue, -⟩)
      · cases h
        rfl
      · cases hValue
  | ok value =>
    constructor
    · exact fun h => .inr ⟨value, rfl, h⟩
    · rintro (h | ⟨_, ⟨⟩, h⟩)
      · cases h
      · exact h

theorem map_eq_error {f : α → β} {x : Except ε α} : f <$> x = .error error ↔ x = .error error := by
  cases x with
  | error other => simp [Functor.map, Except.map]
  | ok value => simp [Functor.map, Except.map]

theorem mapM_eq_error {f : α → Except ε β} {values : List α} (h : values.mapM f = .error error) :
    ∃ value, f value = .error error := by
  induction values with
  | nil => cases h
  | cons value values ih =>
    rw [List.mapM_cons] at h
    rcases bind_eq_error.mp h with hFirst | ⟨_, -, h⟩
    · exact ⟨value, hFirst⟩
    · rcases bind_eq_error.mp h with hOthers | ⟨_, -, h⟩
      · exact ih hOthers
      · cases h

theorem unless_eq_error {reason : Prop} [Decidable reason] {refusal : ε} {next : Unit → Except ε β} :
    (if reason then (throw refusal : Except ε Unit) >>= next else next ()) = .error error ↔
      reason ∧ refusal = error ∨ ¬ reason ∧ next () = .error error := by
  by_cases hReason : reason
  · rw [if_pos hReason]
    have hThrow : (throw refusal : Except ε Unit) >>= next = .error refusal := rfl
    simp [hThrow, hReason]
  · rw [if_neg hReason]
    simp [hReason]

end Outcomes

theorem checkedName_eq_error {raw : String} {rejection : Rejection} :
    checkedName raw = .error rejection ↔ wordOf raw = "" ∧ .emptyName raw = rejection := by
  unfold checkedName
  dsimp only
  split
  · rename_i hEmpty
    simp [hEmpty]
  · rename_i hName
    simp [hName]

theorem refuseReserved_eq_error {name : String} {rejection : Rejection} :
    refuseReserved name = .error rejection ↔
      ∃ reserved, reservedSpelling? name = some reserved ∧ .reservedName name reserved = rejection := by
  unfold refuseReserved
  split
  · rename_i reserved hReserved
    simp [hReserved]
  · rename_i hNone
    simp [hNone]

theorem checkedType_eq_error {site : TypeSite} {type : String} {rejection : Rejection}
    (h : checkedType site type = .error rejection) : ∃ reason, .invalidType site reason = rejection := by
  unfold checkedType at h
  split at h
  · cases h
  · exact ⟨_, Except.error.inj h⟩

/-- What can be wrong with what a member holds. -/
inductive Rejection.OfContent : Rejection → Prop
  | emptyName {raw : String} (h : wordOf raw = "") : OfContent (.emptyName raw)
  | invalidType (site : TypeSite) (reason : InvalidType) : OfContent (.invalidType site reason)

section Content

variable {rejection : Rejection}

theorem ofContent_of_checkedName {raw : String} (h : checkedName raw = .error rejection) : rejection.OfContent := by
  obtain ⟨hEmpty, rfl⟩ := checkedName_eq_error.mp h
  exact .emptyName hEmpty

theorem ofContent_of_checkedType {site : TypeSite} {type : String} (h : checkedType site type = .error rejection) :
    rejection.OfContent := by
  obtain ⟨reason, rfl⟩ := checkedType_eq_error h
  exact .invalidType site reason

theorem Attribute.ofContent_of_normalize {member : Attribute} (h : member.normalize = .error rejection) :
    rejection.OfContent := by
  rcases bind_eq_error.mp h with hName | ⟨name, -, h⟩
  · exact ofContent_of_checkedName hName
  · rcases bind_eq_error.mp h with hType | ⟨type, -, h⟩
    · exact ofContent_of_checkedType hType
    · cases h

theorem Parameter.ofContent_of_normalize {operation : String} {parameter : Parameter}
    (h : parameter.normalize operation = .error rejection) : rejection.OfContent := by
  rcases bind_eq_error.mp h with hName | ⟨name, -, h⟩
  · exact ofContent_of_checkedName hName
  · rcases bind_eq_error.mp h with hType | ⟨type, -, h⟩
    · exact ofContent_of_checkedType hType
    · cases h

theorem ofContent_of_checkedReturn {operation : String} {type : Option String}
    (h : checkedReturn operation type = .error rejection) : rejection.OfContent := by
  cases type with
  | none => cases h
  | some type => exact ofContent_of_checkedType (map_eq_error.mp h)

theorem Operation.ofContent_of_normalize {member : Operation} (h : member.normalize = .error rejection) :
    rejection.OfContent := by
  rcases bind_eq_error.mp h with hName | ⟨name, -, h⟩
  · exact ofContent_of_checkedName hName
  · rcases bind_eq_error.mp h with hReturn | ⟨returnType, -, h⟩
    · exact ofContent_of_checkedReturn hReturn
    · rcases bind_eq_error.mp h with hParameters | ⟨parameters, -, h⟩
      · obtain ⟨parameter, hParameter⟩ := mapM_eq_error hParameters
        exact parameter.ofContent_of_normalize hParameter
      · cases h

theorem Member.ofContent_of_normalize {member : Member} (h : member.normalize = .error rejection) :
    rejection.OfContent := by
  have hAttributes {attributes : List Attribute} (h : attributes.mapM Attribute.normalize = .error rejection) :
      rejection.OfContent := by
    obtain ⟨_, hAttribute⟩ := mapM_eq_error h
    exact Attribute.ofContent_of_normalize hAttribute
  have hOperations {operations : List Operation} (h : operations.mapM Operation.normalize = .error rejection) :
      rejection.OfContent := by
    obtain ⟨_, hOperation⟩ := mapM_eq_error h
    exact Operation.ofContent_of_normalize hOperation
  have hObject {object : DomainObject} (h : object.normalize = .error rejection) : rejection.OfContent := by
    rcases bind_eq_error.mp h with h | ⟨_, -, h⟩
    · exact hAttributes h
    · cases h
  cases member with
  | entity content =>
    rcases bind_eq_error.mp (map_eq_error.mp h) with h | ⟨_, -, h⟩
    · exact hAttributes h
    · rcases bind_eq_error.mp h with h | ⟨_, -, h⟩
      · exact hOperations h
      · cases h
  | valueObject content => exact hObject (map_eq_error.mp h)
  | domainEvent content => exact hObject (map_eq_error.mp h)
  | command content => exact hObject (map_eq_error.mp h)
  | service content =>
    rcases bind_eq_error.mp (map_eq_error.mp h) with h | ⟨_, -, h⟩
    · exact hOperations h
    · cases h

end Content

/-- What a member holds is checked without regard to its name. -/
theorem Member.normalize_rename (member : Member) (name : String) :
    (member.rename name).normalize = Member.rename name <$> member.normalize := by
  cases member <;>
    simp [rename, normalize, Entity.normalize, DomainObject.normalize, Service.normalize]

/-! ## Edits that bring a name -/

/-- An addition of one element, but for the name of the element. -/
inductive NamedEdit
  | aggregate (context : String) (module? : Option String)
  | member (context aggregate : String) (content : Member)

namespace NamedEdit

def edit : NamedEdit → String → Edit
  | .aggregate context module?, name => .aggregate context module? name
  | .member context owner content, name => .member context owner (content.rename name)

end NamedEdit

/-- Why an addition under the name `raw` is refused: by its name, by what it holds, or by where it would go. -/
inductive NamedEdit.Refused (model : Model) (raw : String) : NamedEdit → Rejection → Prop
  | emptyName {named : NamedEdit} (hName : wordOf raw = "") : Refused model raw named (.emptyName raw)
  | reservedName {named : NamedEdit} {reserved : String} (hReserved : reservedSpelling? (wordOf raw) = some reserved) :
      Refused model raw named (.reservedName (wordOf raw) reserved)
  | content {context owner : String} {content : Member} {rejection : Rejection}
      (hContent : content.normalize = .error rejection) : Refused model raw (.member context owner content) rejection
  | noContext {context : String} {module? : Option String} :
      Refused model raw (.aggregate context module?) (.unknownContext context)
  | noModule {context module : String} :
      Refused model raw (.aggregate context (some module)) (.unknownModule context module)
  | noTarget {context owner : String} {content : Member} {rejection : Rejection}
      (hTarget : model.requireAggregate context owner = .error rejection) :
      Refused model raw (.member context owner content) rejection
  | repeatedAggregate {context : String} {module? : Option String} {placed : PlacedContext}
      (hContext : model.findContext? context = some placed) (hTaken : placed.context.hasAggregate (wordOf raw) = true) :
      Refused model raw (.aggregate context module?) (.duplicate .aggregate (wordOf raw) (.boundedContext context))
  | repeatedMember {context owner : String} {content : Member} {placed : PlacedContext} {target : PlacedAggregate}
      (hTarget : model.requireAggregate context owner = .ok (placed, target))
      (hTaken : wordOf raw ∈ content.kind.names target.aggregate) :
      Refused model raw (.member context owner content)
        (.duplicate content.kind.keyword (wordOf raw) (.aggregate owner))
  | nameInUse {context owner : String} {content normal : Member} {placed : PlacedContext} {target : PlacedAggregate}
      {existing : Occurrence} (hName : wordOf raw ≠ "") (hContent : content.normalize = .ok normal)
      (hTarget : model.requireAggregate context owner = .ok (placed, target))
      (hShares : content.kind.sharesNames = true) (hFirst : model.firstOccurrence? (wordOf raw) = some existing) :
      Refused model raw (.member context owner content) (.nameInUse (wordOf raw) existing context)

namespace Model

variable {model : Model} {named : NamedEdit} {raw : String} {rejection : Rejection}

theorem requireContext_eq_error {context : String} (h : model.requireContext context = .error rejection) :
    .unknownContext context = rejection := by
  unfold requireContext at h
  split at h
  · cases h
  · exact Except.error.inj h

theorem requireAggregate_eq_error {context aggregate : String}
    (h : model.requireAggregate context aggregate = .error rejection) :
    .unknownContext context = rejection ∨ .unknownAggregate context aggregate = rejection := by
  rcases bind_eq_error.mp h with hContext | ⟨placed, -, h⟩
  · exact .inl (requireContext_eq_error hContext)
  · split at h
    · cases h
    · exact .inr (Except.error.inj h)

theorem singleOutcome_eq_error {outcome : Except Rejection (Model × Path)} :
    singleOutcome outcome = .error (.rejected rejection) ↔ outcome = .error rejection := by
  cases outcome <;> simp [singleOutcome]

theorem ok_or_rejected (model : Model) (named : NamedEdit) (raw : String) :
    (∃ result, model.edit (named.edit raw) = .ok result) ∨
      ∃ rejection, model.edit (named.edit raw) = .error (.rejected rejection) := by
  have hSingle (outcome : Except Rejection (Model × Path)) :
      (∃ result, singleOutcome outcome = .ok result) ∨
        ∃ rejection, singleOutcome outcome = .error (.rejected rejection) := by
    cases outcome with
    | ok result => exact .inl ⟨_, rfl⟩
    | error rejection => exact .inr ⟨rejection, rfl⟩
  cases named with
  | aggregate context module? => exact hSingle (model.addAggregate context module? raw)
  | member context aggregate content => exact hSingle (model.addMember context aggregate (content.rename raw))

theorem refused_of_addAggregate {context : String} {module? : Option String}
    (h : model.addAggregate context module? raw = .error rejection) :
    (NamedEdit.aggregate context module?).Refused model raw rejection := by
  rcases bind_eq_error.mp h with hEmpty | ⟨name, hChecked, h⟩
  · obtain ⟨hName, rfl⟩ := checkedName_eq_error.mp hEmpty
    exact .emptyName hName
  obtain ⟨rfl, -⟩ := checkedName_eq_ok.mp hChecked
  rcases bind_eq_error.mp h with hReserved | ⟨_, -, h⟩
  · obtain ⟨reserved, hSpelling, hSame⟩ := refuseReserved_eq_error.mp hReserved
    rw [← hSame]
    exact .reservedName hSpelling
  rcases bind_eq_error.mp h with hContext | ⟨placed, hContext, h⟩
  · rw [← requireContext_eq_error hContext]
    exact .noContext
  rcases unless_eq_error.mp h with ⟨hTaken, rfl⟩ | ⟨-, h⟩
  · exact .repeatedAggregate (requireContext_eq_ok.mp hContext) hTaken
  cases module? with
  | none => cases h
  | some module =>
    dsimp only at h
    split at h
    · cases h
      exact .noModule
    · cases h

theorem refused_of_prepare {context owner : String} {content : Member}
    (h : model.prepare context owner [] (content.rename raw) = .error rejection) :
    (NamedEdit.member context owner content).Refused model raw rejection := by
  rcases bind_eq_error.mp h with hEmpty | ⟨name, hChecked, h⟩
  · rw [Member.name_rename] at hEmpty
    obtain ⟨hName, rfl⟩ := checkedName_eq_error.mp hEmpty
    exact .emptyName hName
  rw [Member.name_rename] at hChecked
  obtain ⟨rfl, hName⟩ := checkedName_eq_ok.mp hChecked
  rcases bind_eq_error.mp h with hReserved | ⟨_, -, h⟩
  · obtain ⟨reserved, hSpelling, hSame⟩ := refuseReserved_eq_error.mp hReserved
    rw [← hSame]
    exact .reservedName hSpelling
  rw [Member.normalize_rename] at h
  rcases bind_eq_error.mp h with hContent | ⟨_, hContent, h⟩
  · exact .content (map_eq_error.mp hContent)
  obtain ⟨normal, hContent, -⟩ := map_eq_ok.mp hContent
  rcases bind_eq_error.mp h with hTarget | ⟨⟨placed, target⟩, hTarget, h⟩
  · exact .noTarget hTarget
  rw [Member.kind_rename] at h
  rcases unless_eq_error.mp h with ⟨hTaken, rfl⟩ | ⟨-, h⟩
  · exact .repeatedMember hTarget (hTaken.resolve_right List.not_mem_nil)
  dsimp only at h
  split at h
  · rename_i hShares
    split at h
    · rename_i existing hFirst
      cases h
      exact .nameInUse hName hContent hTarget hShares hFirst
    · cases h
  · cases h

theorem refused_of_edit (h : model.edit (named.edit raw) = .error (.rejected rejection)) :
    named.Refused model raw rejection := by
  cases named with
  | aggregate context module? => exact refused_of_addAggregate (singleOutcome_eq_error.mp h)
  | member context owner content =>
    have hAdd : model.addMember context owner (content.rename raw) = .error rejection := singleOutcome_eq_error.mp h
    rcases bind_eq_error.mp hAdd with hPrepare | ⟨prepared, -, hInsert⟩
    · exact refused_of_prepare hPrepare
    · rcases bind_eq_error.mp hInsert with hTarget | ⟨_, -, hInsert⟩
      · exact .noTarget hTarget
      · cases hInsert

end Model

end DomainAtlas
