import DomainAtlas.Proofs.Editing.Steps
import Mathlib.Data.List.Forall2

/-! # Normal forms of members

What an edit makes of a member before it adds it: the same content in the same order, with each name reduced
to a word and each type in canonical form. Nothing else of the model has a part in it.
-/
set_option autoImplicit false

namespace DomainAtlas

/-- What is left of a text that is reduced to a word, if anything is left. -/
def NameOf (raw name : String) : Prop :=
  name = Text.wordOf raw ∧ name ≠ ""

/-- The canonical form of a text that is accepted as a type. -/
def TypeOf (given type : String) : Prop :=
  ∃ accepted, acceptType given = .ok accepted ∧ type = accepted.text

structure Attribute.NormalizesTo (given normal : Attribute) : Prop where
  name : NameOf given.name normal.name
  type : TypeOf given.type normal.type
  key : normal.key = given.key
  nullable : normal.nullable = given.nullable

structure Parameter.NormalizesTo (given normal : Parameter) : Prop where
  name : NameOf given.name normal.name
  type : TypeOf given.type normal.type

structure Operation.NormalizesTo (given normal : Operation) : Prop where
  name : NameOf given.name normal.name
  returnType : Option.Rel TypeOf given.returnType normal.returnType
  parameters : List.Forall₂ Parameter.NormalizesTo given.parameters normal.parameters

structure Entity.NormalizesTo (given normal : Entity) : Prop where
  name : NameOf given.name normal.name
  isRoot : normal.isRoot = given.isRoot
  attributes : List.Forall₂ Attribute.NormalizesTo given.attributes normal.attributes
  operations : List.Forall₂ Operation.NormalizesTo given.operations normal.operations

structure DomainObject.NormalizesTo (given normal : DomainObject) : Prop where
  name : NameOf given.name normal.name
  attributes : List.Forall₂ Attribute.NormalizesTo given.attributes normal.attributes

structure Service.NormalizesTo (given normal : Service) : Prop where
  name : NameOf given.name normal.name
  operations : List.Forall₂ Operation.NormalizesTo given.operations normal.operations

inductive Member.NormalizesTo : Member → Member → Prop
  | entity {given normal : Entity} (h : given.NormalizesTo normal) : NormalizesTo (.entity given) (.entity normal)
  | valueObject {given normal : DomainObject} (h : given.NormalizesTo normal) :
      NormalizesTo (.valueObject given) (.valueObject normal)
  | domainEvent {given normal : DomainObject} (h : given.NormalizesTo normal) :
      NormalizesTo (.domainEvent given) (.domainEvent normal)
  | command {given normal : DomainObject} (h : given.NormalizesTo normal) :
      NormalizesTo (.command given) (.command normal)
  | service {given normal : Service} (h : given.NormalizesTo normal) :
      NormalizesTo (.service given) (.service normal)

theorem mapM_eq_ok {ε α β : Type} {f : α → Except ε β} {values : List α} {results : List β} :
    values.mapM f = .ok results ↔ List.Forall₂ (fun value result => f value = .ok result) values results := by
  induction values generalizing results with
  | nil =>
    rw [List.mapM_nil, List.forall₂_nil_left_iff]
    constructor
    · rintro ⟨⟩
      rfl
    · rintro rfl
      rfl
  | cons value values ih =>
    simp only [List.mapM_cons, bind_eq_ok, List.forall₂_cons_left_iff, ih]
    constructor
    · rintro ⟨result, hResult, others, hOthers, ⟨⟩⟩
      exact ⟨result, others, hResult, hOthers, rfl⟩
    · rintro ⟨result, others, hResult, hOthers, rfl⟩
      exact ⟨result, hResult, others, hOthers, rfl⟩

theorem checkedName_eq_ok {raw name : String} : checkedName raw = .ok name ↔ NameOf raw name := by
  unfold checkedName NameOf
  dsimp only
  split
  · rename_i hEmpty
    rw [hEmpty]
    simp
  · rename_i hName
    constructor
    · rintro ⟨⟩
      exact ⟨rfl, hName⟩
    · rintro ⟨rfl, -⟩
      rfl

theorem checkedType_eq_ok {site : TypeSite} {given type : String} :
    checkedType site given = .ok type ↔ TypeOf given type := by
  unfold checkedType TypeOf
  split
  · rename_i accepted hAccepted
    simp [hAccepted, eq_comm]
  · rename_i reason hRefused
    simp [hRefused]

theorem checkedReturn_eq_ok {operation : String} {given type : Option String} :
    checkedReturn operation given = .ok type ↔ Option.Rel TypeOf given type := by
  cases given with
  | none =>
    constructor
    · rintro ⟨⟩
      exact .none
    · rintro ⟨⟩
      rfl
  | some given =>
    rw [checkedReturn, map_eq_ok]
    constructor
    · rintro ⟨type, hType, rfl⟩
      exact .some (checkedType_eq_ok.mp hType)
    · rintro ⟨hType⟩
      exact ⟨_, checkedType_eq_ok.mpr hType, rfl⟩

/-! ## Normal forms as they are computed -/

theorem Attribute.normalize_eq_ok {given normal : Attribute} (h : given.normalize = .ok normal) :
    given.NormalizesTo normal := by
  obtain ⟨name, hName, h⟩ := bind_eq_ok.mp h
  obtain ⟨type, hType, h⟩ := bind_eq_ok.mp h
  cases h
  exact ⟨checkedName_eq_ok.mp hName, checkedType_eq_ok.mp hType, rfl, rfl⟩

theorem Parameter.normalize_eq_ok {operation : String} {given normal : Parameter}
    (h : Parameter.normalize operation given = .ok normal) : given.NormalizesTo normal := by
  obtain ⟨name, hName, h⟩ := bind_eq_ok.mp h
  obtain ⟨type, hType, h⟩ := bind_eq_ok.mp h
  cases h
  exact ⟨checkedName_eq_ok.mp hName, checkedType_eq_ok.mp hType⟩

theorem Operation.normalize_eq_ok {given normal : Operation} (h : given.normalize = .ok normal) :
    given.NormalizesTo normal := by
  obtain ⟨name, hName, h⟩ := bind_eq_ok.mp h
  obtain ⟨returnType, hReturn, h⟩ := bind_eq_ok.mp h
  obtain ⟨parameters, hParameters, h⟩ := bind_eq_ok.mp h
  cases h
  exact ⟨checkedName_eq_ok.mp hName, checkedReturn_eq_ok.mp hReturn,
    (mapM_eq_ok.mp hParameters).imp fun _ _ => Parameter.normalize_eq_ok⟩

theorem normalizesTo_of_attributes {given normal : List Attribute} (h : given.mapM Attribute.normalize = .ok normal) :
    List.Forall₂ Attribute.NormalizesTo given normal :=
  (mapM_eq_ok.mp h).imp fun _ _ => Attribute.normalize_eq_ok

theorem normalizesTo_of_operations {given normal : List Operation} (h : given.mapM Operation.normalize = .ok normal) :
    List.Forall₂ Operation.NormalizesTo given normal :=
  (mapM_eq_ok.mp h).imp fun _ _ => Operation.normalize_eq_ok

theorem DomainObject.normalizesTo_of_normalize {given normal : DomainObject} {name : String}
    (h : given.normalize = .ok normal) (hName : NameOf given.name name) :
    given.NormalizesTo { normal with name } := by
  obtain ⟨attributes, hAttributes, h⟩ := bind_eq_ok.mp h
  cases h
  exact ⟨hName, normalizesTo_of_attributes hAttributes⟩

/-- The normal form of a member is that of its content, under the word that its name is reduced to. -/
theorem Member.normalizesTo_of_normalize {given normal : Member} {name : String}
    (h : given.normalize = .ok normal) (hName : NameOf given.name name) :
    given.NormalizesTo (normal.rename name) := by
  cases given <;> obtain ⟨content, hContent, rfl⟩ := map_eq_ok.mp h
  case entity given =>
    obtain ⟨attributes, hAttributes, hContent⟩ := bind_eq_ok.mp hContent
    obtain ⟨operations, hOperations, hContent⟩ := bind_eq_ok.mp hContent
    cases hContent
    exact .entity ⟨hName, rfl, normalizesTo_of_attributes hAttributes, normalizesTo_of_operations hOperations⟩
  case valueObject given => exact .valueObject (DomainObject.normalizesTo_of_normalize hContent hName)
  case domainEvent given => exact .domainEvent (DomainObject.normalizesTo_of_normalize hContent hName)
  case command given => exact .command (DomainObject.normalizesTo_of_normalize hContent hName)
  case service given =>
    obtain ⟨operations, hOperations, hContent⟩ := bind_eq_ok.mp hContent
    cases hContent
    exact .service ⟨hName, normalizesTo_of_operations hOperations⟩

theorem Member.NormalizesTo.kind_eq {given normal : Member} (h : given.NormalizesTo normal) :
    normal.kind = given.kind := by
  cases h <;> rfl

namespace Model

variable {model : Model} {context aggregate : String}

theorem normalizesTo_of_prepare {pending : List String} {member prepared : Member}
    (h : model.prepare context aggregate pending member = .ok prepared) : member.NormalizesTo prepared := by
  obtain ⟨normal, _, _, hName, -, hNormal, hPrepared, -⟩ := prepare_eq_ok h
  rw [hPrepared]
  exact Member.normalizesTo_of_normalize hNormal (checkedName_eq_ok.mp hName)

theorem normalizesTo_of_prepareAll {mode : BatchMode} {index : Nat} {pending : List String}
    {members accepted : List Member}
    (h : model.prepareAll context aggregate mode index pending members = (accepted, [])) :
    List.Forall₂ Member.NormalizesTo members accepted := by
  induction members generalizing index pending accepted with
  | nil =>
    cases h
    exact .nil
  | cons member members ih =>
    rw [prepareAll] at h
    split at h
    · rename_i prepared hPrepared
      generalize hRest : model.prepareAll context aggregate mode (index + 1) (pending ++ [prepared.name]) members =
        rest at h
      obtain ⟨others, failures⟩ := rest
      cases h
      exact .cons (normalizesTo_of_prepare hPrepared) (ih hRest)
    · cases mode <;> cases h

end Model

end DomainAtlas
