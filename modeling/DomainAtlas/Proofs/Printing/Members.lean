import DomainAtlas.Printer
import DomainAtlas.Proofs.Model.CanonicalTypes
import DomainAtlas.Proofs.Model.Fields

/-! # Members as written

The line of an attribute or an operation is read as a declaration of just that member, with its types in canonical
form, whatever stands in the next line.
-/
set_option autoImplicit false

namespace DomainAtlas

open Text Printer

variable {α β : Type}

namespace Phrase

/-- A text after which a word stands as it would without it. -/
def Trails (text : String) : Prop :=
  ∀ rest, EndsWord rest → EndsWord (text.toList ++ rest)

theorem trails_empty : Trails "" := fun _ h => h

theorem EndsBefore.trails {text : String} (h : EndsBefore text) : Trails text :=
  fun rest _ => h.endsWord rest

theorem endsBefore_space (text : String) : EndsBefore (" " ++ text) :=
  ⟨' ', text.toList, by rw [String.toList_append]; rfl, by decide⟩

theorem Trails.endsWord {text : String} (h : Trails text) : EndsWord text.toList := by
  simpa using h [] fun c hc => absurd hc (Option.not_mem_none c)

theorem Trails.append {first second : String} (hFirst : Trails first) (hSecond : Trails second) :
    Trails (first ++ second) := by
  intro rest hRest
  rw [String.toList_append, List.append_assoc]
  exact hFirst _ (hSecond rest hRest)

theorem Spelt.bindTrailing {phrase : Phrase α} {next : α → Phrase β} {first second : String} {value : α}
    {result : β} (hFirst : phrase.Spelt EndsWord first value) (hSecond : (next value).Spelt EndsWord second result)
    (hTrails : Trails second) : (phrase >>= next).Spelt EndsWord (first ++ second) result :=
  hFirst.bindWith hSecond hTrails

/-! ## Flags and lists -/

def flagText (text : String) (flag : Bool) : String :=
  if flag then " " ++ text else ""

theorem trails_flagText (text : String) (flag : Bool) : Trails (flagText text flag) := by
  cases flag with
  | false => exact trails_empty
  | true => exact (endsBefore_space text).trails

theorem spelt_flag (k : Keyword) (flag : Bool) :
    (present (keyword k)).Spelt EndsWord (flagText k.text flag) flag := by
  cases flag with
  | false => exact Spelt.skip optional.none (spelt_pure false EndsWord)
  | true =>
    obtain ⟨tokens, hPhrase, hSpells⟩ := spelt_keyword k
    have hPresent : (present (keyword k)) tokens true :=
      ⟨tokens, [], some (), by simp, optional.some hPhrase, rfl, rfl⟩
    exact Spelt.afterSpace ⟨tokens, hPresent, hSpells⟩

theorem Spelt.manyCons {phrase : Phrase α} {follow : List Char → Prop} {first second : String} {value : α}
    {values : List α} (hFirst : phrase.Spelt anyText first value)
    (hSecond : (many phrase).Spelt follow second values) :
    (many phrase).Spelt follow (first ++ second) (value :: values) := by
  obtain ⟨front, hFront, hSpells⟩ := hFirst
  obtain ⟨back, hBack, hSpells'⟩ := hSecond
  exact ⟨front ++ back, many.cons hFront hBack, hSpells.append hSpells' fun _ _ => trivial⟩

theorem spelt_many_nil (phrase : Phrase α) (follow : List Char → Prop) : (many phrase).Spelt follow "" [] :=
  ⟨[], many.nil, spells_empty follow⟩

theorem many_append {phrase : Phrase α} {front back : List Token} {values others : List α}
    (hFront : many phrase front values) (hBack : many phrase back others) :
    many phrase (front ++ back) (values ++ others) := by
  induction hFront with
  | nil => exact hBack
  | cons hFirst _ ih =>
    rw [List.append_assoc]
    exact many.cons hFirst ih

theorem Spelt.manyAppend {phrase : Phrase α} {first second : String} {values others : List α}
    (hFirst : (many phrase).Spelt anyText first values) (hSecond : (many phrase).Spelt anyText second others) :
    (many phrase).Spelt anyText (first ++ second) (values ++ others) := by
  obtain ⟨front, hFront, hSpells⟩ := hFirst
  obtain ⟨back, hBack, hSpells'⟩ := hSecond
  exact ⟨front ++ back, many_append hFront hBack, hSpells.append hSpells' fun _ _ => trivial⟩

theorem spelt_of_map {γ : Type} {f : α → γ} {phrase : Phrase α} {follow : List Char → Prop} {text : String}
    {result : γ} (h : (f <$> phrase).Spelt follow text result) :
    ∃ value, f value = result ∧ phrase.Spelt follow text value := by
  obtain ⟨tokens, hMap, hSpells⟩ := h
  obtain ⟨value, hPhrase, rfl⟩ := map_iff.mp hMap
  exact ⟨value, rfl, tokens, hPhrase, hSpells⟩

theorem intercalate_cons {separator text : String} {texts : List String} :
    separator.intercalate (text :: texts) = text ++ String.join (texts.map (separator ++ ·)) := by
  induction texts generalizing text with
  | nil => simp
  | cons next texts ih =>
    rw [String.intercalate_cons_cons, ih, List.map_cons, String.join_cons, String.append_assoc,
      String.append_assoc]

theorem Spelt.some {phrase : Phrase α} {follow : List Char → Prop} {text : String} {value : α}
    (h : phrase.Spelt follow text value) : (optional phrase).Spelt follow text (Option.some value) := by
  obtain ⟨tokens, hPhrase, hSpells⟩ := h
  exact ⟨tokens, optional.some hPhrase, hSpells⟩

theorem Spelt.orEmpty {phrase : Phrase (List α)} {follow : List Char → Prop} {text : String} {values : List α}
    (h : phrase.Spelt follow text values) : (orEmpty phrase).Spelt follow text values := by
  obtain ⟨tokens, hPhrase, hSpells⟩ := h.some
  exact ⟨tokens, ⟨tokens, [], _, by simp, hPhrase, rfl, rfl⟩, hSpells⟩

theorem spelt_orEmpty_nil (phrase : Phrase (List α)) (follow : List Char → Prop) :
    (Phrase.orEmpty phrase).Spelt follow "" [] :=
  Spelt.skip optional.none (spelt_pure [] follow)

section Separated

variable {γ δ : Type} {separator : Phrase Unit} {phrase : Phrase α} {mark : String} {f : α → γ} {meant : δ → γ}
  {text : δ → String}

theorem trails_join {marked : List String} (h : ∀ text ∈ marked, EndsBefore text) :
    Trails (String.join marked) := by
  cases marked with
  | nil => exact trails_empty
  | cons first others =>
    rw [String.join_cons]
    exact ((h first List.mem_cons_self).append _).trails

theorem spelt_marked (hMark : separator.Spelt anyText mark ()) (hEnds : EndsBefore mark) {values : List δ}
    (h : ∀ value ∈ values, (f <$> phrase).Spelt EndsWord (text value) (meant value)) :
    ∃ decls, decls.map f = values.map meant ∧
      (many (do separator; phrase)).Spelt EndsWord (String.join (values.map fun value => mark ++ text value))
        decls := by
  induction values with
  | nil => exact ⟨[], rfl, spelt_many_nil _ EndsWord⟩
  | cons value values ih =>
    obtain ⟨decl, hDecl, hFirst⟩ := spelt_of_map (h value List.mem_cons_self)
    obtain ⟨decls, hDecls, hOthers⟩ := ih fun other hOther => h other (List.mem_cons_of_mem _ hOther)
    refine ⟨decl :: decls, by rw [List.map_cons, List.map_cons, hDecl, hDecls], ?_⟩
    have hPair : (separator >>= fun _ => phrase).Spelt EndsWord _ decl := hMark.bind hFirst
    obtain ⟨front, hFront, hSpells⟩ := hPair
    obtain ⟨back, hBack, hSpells'⟩ := hOthers
    refine ⟨front ++ back, many.cons hFront hBack, ?_⟩
    rw [List.map_cons, String.join_cons]
    refine hSpells.append hSpells' (trails_join ?_)
    intro marked hMarked
    obtain ⟨other, -, rfl⟩ := List.mem_map.mp hMarked
    exact hEnds.append _

theorem spelt_separated (hMark : separator.Spelt anyText mark ()) (hEnds : EndsBefore mark) {values : List δ}
    (hValues : values ≠ []) (h : ∀ value ∈ values, (f <$> phrase).Spelt EndsWord (text value) (meant value)) :
    ∃ decls, decls.map f = values.map meant ∧
      (separated separator phrase).Spelt EndsWord (mark.intercalate (values.map text)) decls := by
  cases values with
  | nil => exact absurd rfl hValues
  | cons value values =>
    obtain ⟨decl, hDecl, hFirst⟩ := spelt_of_map (h value List.mem_cons_self)
    obtain ⟨decls, hDecls, hOthers⟩ :=
      spelt_marked hMark hEnds fun other hOther => h other (List.mem_cons_of_mem _ hOther)
    refine ⟨decl :: decls, by rw [List.map_cons, List.map_cons, hDecl, hDecls], ?_⟩
    have hTrails : Trails (String.join (values.map fun value => mark ++ text value)) := by
      refine trails_join fun marked hMarked => ?_
      obtain ⟨other, -, rfl⟩ := List.mem_map.mp hMarked
      exact hEnds.append _
    have hTail : (do
        let others ← many (do separator; phrase)
        return decl :: others).Spelt EndsWord (String.join (values.map fun value => mark ++ text value) ++ "")
        (decl :: decls) :=
      hOthers.bindTrailing (spelt_pure _ EndsWord) trails_empty
    rw [String.append_empty] at hTail
    rw [List.map_cons, intercalate_cons, List.map_map]
    exact hFirst.bindTrailing hTail hTrails

theorem spelt_marked_self {phrase : Phrase δ} (hMark : separator.Spelt anyText mark ()) (hEnds : EndsBefore mark)
    {values : List δ} (h : ∀ value ∈ values, phrase.Spelt EndsWord (text value) value) :
    (many (do separator; phrase)).Spelt EndsWord (String.join (values.map fun value => mark ++ text value))
      values := by
  have hMapped : ∀ value ∈ values, (id <$> phrase).Spelt EndsWord (text value) (id value) :=
    fun value hValue => (h value hValue).map id
  obtain ⟨decls, hDecls, hSpelt⟩ := spelt_marked hMark hEnds hMapped
  rw [List.map_id, List.map_id] at hDecls
  exact hDecls ▸ hSpelt

theorem spelt_separated_self {phrase : Phrase δ} (hMark : separator.Spelt anyText mark ()) (hEnds : EndsBefore mark)
    {values : List δ} (hValues : values ≠ []) (h : ∀ value ∈ values, phrase.Spelt EndsWord (text value) value) :
    (separated separator phrase).Spelt EndsWord (mark.intercalate (values.map text)) values := by
  have hMapped : ∀ value ∈ values, (id <$> phrase).Spelt EndsWord (text value) (id value) :=
    fun value hValue => (h value hValue).map id
  obtain ⟨decls, hDecls, hSpelt⟩ := spelt_separated hMark hEnds hValues hMapped
  rw [List.map_id, List.map_id] at hDecls
  exact hDecls ▸ hSpelt

end Separated

theorem spelt_comma : (symbol .comma).Spelt anyText ", " () := by
  refine ⟨[.symbol .comma], symbol_iff.mpr rfl, ?_⟩
  exact (spells_symbol .comma).append spells_space fun _ _ => trivial

theorem endsBefore_comma : EndsBefore ", " := ⟨',', [' '], rfl, by decide⟩

/-! ## Attributes and operations -/

/-- A type in front of a name. -/
theorem spelt_type {type : String} (h : IsCanonicalType (canonicalType type)) :
    (TypeRef.text <$> typeRef).Spelt anyText (writtenType type ++ " ") (canonicalType type) := by
  rcases canonicalType_cases type with hSame | ⟨read, hRead, hEnd, hText⟩
  · rw [hSame] at h ⊢
    obtain ⟨canonical, hWord, rfl⟩ := h
    exact ((spelt_typeRef hWord).map TypeRef.text).beforeSpace
  · obtain ⟨tokens, hScans, hType⟩ := TypeRef.ofText_eq_ok.mp hRead
    rw [hText]
    refine ⟨tokens, map_iff.mpr ⟨read, hType, rfl⟩, ?_⟩
    intro rest others _ hOthers
    rw [String.toList_append, List.append_assoc]
    exact hScans.append_space hEnd hOthers

theorem attributeLine_eq (member : Attribute) :
    attributeLine member = writtenType member.type ++ " " ++ (writtenMemberName member.name
      ++ (flagText "key" member.key ++ flagText "nullable" member.nullable)) := by
  have hKey : (if member.key then " key" else "") = flagText "key" member.key := rfl
  have hNullable : (if member.nullable then " nullable" else "") = flagText "nullable" member.nullable := rfl
  simp only [attributeLine, typedName, hKey, hNullable, String.append_assoc]

theorem spelt_attribute {member : Attribute} (h : (member.mapTypes canonicalType).WellFormed) :
    (AttributeDecl.toAttribute <$> attributeDecl).Spelt EndsWord (attributeLine member)
      (member.mapTypes canonicalType) := by
  obtain ⟨name, type, key, nullable⟩ := member
  obtain ⟨decl, hDecl, hType⟩ := spelt_of_map (spelt_type h.type)
  have hKey : (present (keyword .key)).Spelt EndsWord (flagText "key" key) key :=
    spelt_flag .key key
  have hNullable : (present (keyword .nullable)).Spelt EndsWord (flagText "nullable" nullable) nullable :=
    spelt_flag .nullable nullable
  have hAttribute : attributeDecl.Spelt EndsWord
      (writtenType type ++ " " ++ (writtenMemberName name ++ (flagText "key" key
        ++ (flagText "nullable" nullable ++ "")))) ⟨decl, name, key, nullable⟩ := by
    refine hType.bind ((spelt_attributeName h.name).bindTrailing
      (hKey.bindTrailing (hNullable.bindTrailing ?_ trails_empty) ?_) ?_)
    · exact Spelt.skip optional.none (spelt_pure _ EndsWord)
    · exact (trails_flagText _ nullable).append trails_empty
    · exact (trails_flagText _ key).append ((trails_flagText _ nullable).append trails_empty)
  rw [String.append_empty] at hAttribute
  rw [attributeLine_eq, Attribute.mapTypes, ← hDecl]
  exact hAttribute.map AttributeDecl.toAttribute

theorem spelt_parameter {parameter : Parameter} (h : (parameter.mapTypes canonicalType).WellFormed) :
    (ParameterDecl.toParameter <$> parameterDecl).Spelt EndsWord (typedName parameter.type parameter.name)
      (parameter.mapTypes canonicalType) := by
  obtain ⟨name, type⟩ := parameter
  obtain ⟨decl, hDecl, hType⟩ := spelt_of_map (spelt_type h.type)
  have hParameter : parameterDecl.Spelt EndsWord (writtenType type ++ " " ++ (writtenMemberName name ++ ""))
      ⟨decl, name⟩ :=
    hType.bind ((spelt_attributeName h.name).bindTrailing (spelt_pure _ EndsWord) trails_empty)
  rw [String.append_empty] at hParameter
  rw [Parameter.mapTypes, ← hDecl]
  exact hParameter.map ParameterDecl.toParameter

theorem spelt_parameters {parameters : List Parameter}
    (h : ∀ parameter ∈ parameters, (parameter.mapTypes canonicalType).WellFormed) :
    ∃ decls : List ParameterDecl,
      decls.map ParameterDecl.toParameter = parameters.map (Parameter.mapTypes canonicalType) ∧
        (orEmpty (separated (symbol .comma) parameterDecl)).Spelt EndsWord
          (", ".intercalate (parameters.map fun parameter => typedName parameter.type parameter.name)) decls := by
  cases parameters with
  | nil => exact ⟨[], rfl, spelt_orEmpty_nil _ EndsWord⟩
  | cons first others =>
    obtain ⟨decls, hDecls, hSpelt⟩ := spelt_separated spelt_comma endsBefore_comma (List.cons_ne_nil first others)
      fun parameter hParameter => spelt_parameter (h parameter hParameter)
    exact ⟨decls, hDecls, hSpelt.orEmpty⟩

theorem spelt_operation {member : Operation} (h : (member.mapTypes canonicalType).WellFormed) :
    (OperationDecl.toOperation <$> operationDecl).Spelt EndsWord (operationLine member)
      (member.mapTypes canonicalType) := by
  obtain ⟨name, returnType, parameters⟩ := member
  obtain ⟨decls, hDecls, hParameters⟩ := spelt_parameters fun parameter hParameter =>
    h.parameters _ (List.mem_map_of_mem hParameter)
  have hEnd (returnType : Option TypeRef) : (do
      let _ ← optional (symbol .semicolon)
      return ({ returnType, name, parameters := decls } : OperationDecl)).Spelt EndsWord (";" ++ "")
      { returnType, name, parameters := decls } := by
    exact (spelt_symbol (s := .semicolon) fun _ => trivial).some.bind (spelt_pure _ EndsWord)
  have hTail (returnType : Option TypeRef) : (do
      let name ← attributeName
      symbol .leftParen
      let parameters ← orEmpty (separated (symbol .comma) parameterDecl)
      symbol .rightParen
      let _ ← optional (symbol .semicolon)
      return ({ returnType, name, parameters } : OperationDecl)).Spelt EndsWord
      (writtenMemberName name ++ ("(" ++ (", ".intercalate (parameters.map
        fun parameter : Parameter => typedName parameter.type parameter.name) ++ (")" ++ (";" ++ "")))))
      { returnType, name, parameters := decls } := by
    refine (spelt_attributeName h.name).bindText ?_ (EndsBefore.append ⟨'(', [], rfl, by decide⟩ _)
    refine (spelt_symbol (s := .leftParen) fun _ => trivial).bind ?_
    refine hParameters.bindText ?_ (EndsBefore.append ⟨')', [], rfl, by decide⟩ _)
    exact (spelt_symbol (s := .rightParen) fun _ => trivial).bind (hEnd returnType)
  have hDefine : (keyword .define).Spelt EndsWord "def" () := spelt_keyword .define
  rw [Operation.mapTypes, ← hDecls]
  cases returnType with
  | none =>
    have hOperation : operationDecl.Spelt EndsWord _ _ := hDefine.bindSpace (Spelt.skip optional.none (hTail none))
    simpa [operationLine, OperationDecl.toOperation_eq, String.append_assoc] using
      hOperation.map OperationDecl.toOperation
  | some type =>
    obtain ⟨decl, hDecl, hType⟩ := spelt_of_map (spelt_type (h.returnType _ rfl))
    have hOperation : operationDecl.Spelt EndsWord _ _ := hDefine.bindSpace (hType.some.bind (hTail (some decl)))
    simpa [operationLine, typedName, OperationDecl.toOperation_eq, String.append_assoc, hDecl] using
      hOperation.map OperationDecl.toOperation

end Phrase

end DomainAtlas
