import DomainAtlas.Proofs.Grammar.Productions
import DomainAtlas.Proofs.Model.Fields
import DomainAtlas.Proofs.Model.WellFormed
import DomainAtlas.Proofs.Printing.Spelling

/-! # Trees describe well-formed elements

When the names among the tokens are words, the tree that a phrase stands for describes well-formed
elements only.
-/
set_option autoImplicit false

namespace DomainAtlas

open Text (isWord)

variable {α β : Type}

/-- The names among the tokens are words. -/
def WordNames (tokens : List Token) : Prop :=
  ∀ n, .name n ∈ tokens → isWord n = true

theorem wordNames_append {front back : List Token} (h : WordNames (front ++ back)) :
    WordNames front ∧ WordNames back :=
  ⟨fun n hn => h n (List.mem_append_left _ hn), fun n hn => h n (List.mem_append_right _ hn)⟩

namespace Phrase

def Yields (phrase : Phrase α) (Good : α → Prop) : Prop :=
  ∀ tokens value, WordNames tokens → phrase tokens value → Good value

theorem yields_trivial (phrase : Phrase α) : phrase.Yields fun _ => True :=
  fun _ _ _ _ => trivial

theorem yields_pure {Good : α → Prop} {value : α} (h : Good value) : (pure value : Phrase α).Yields Good := by
  rintro tokens result - ⟨-, rfl⟩
  exact h

theorem Yields.bind {phrase : Phrase α} {next : α → Phrase β} {Good : α → Prop} {Better : β → Prop}
    (h : phrase.Yields Good) (hNext : ∀ value, Good value → (next value).Yields Better) :
    (phrase >>= next).Yields Better := by
  rintro tokens result hNames ⟨front, back, value, rfl, hFront, hBack⟩
  obtain ⟨hNamesFront, hNamesBack⟩ := wordNames_append hNames
  exact hNext value (h front value hNamesFront hFront) back result hNamesBack hBack

/-- A phrase whose value says nothing. -/
theorem Yields.skip {phrase : Phrase α} {next : α → Phrase β} {Better : β → Prop}
    (hNext : ∀ value, (next value).Yields Better) : (phrase >>= next).Yields Better :=
  (yields_trivial phrase).bind fun value _ => hNext value

theorem Yields.map {phrase : Phrase α} {f : α → β} {Good : β → Prop}
    (h : phrase.Yields fun value => Good (f value)) : (f <$> phrase).Yields Good :=
  h.bind fun _ hValue => yields_pure hValue

theorem Yields.or {phrase other : Phrase α} {Good : α → Prop} (h : phrase.Yields Good)
    (hOther : other.Yields Good) : (phrase <|> other).Yields Good := by
  rintro tokens value hNames (hPhrase | hPhrase)
  · exact h tokens value hNames hPhrase
  · exact hOther tokens value hNames hPhrase

theorem Yields.many {phrase : Phrase α} {Good : α → Prop} (h : phrase.Yields Good) :
    (many phrase).Yields fun values => ∀ value ∈ values, Good value := by
  intro tokens values hNames hMany
  induction hMany with
  | nil =>
    intro value hValue
    cases hValue
  | cons hFront _ ih =>
    obtain ⟨hNamesFront, hNamesBack⟩ := wordNames_append hNames
    exact List.forall_mem_cons.mpr ⟨h _ _ hNamesFront hFront, ih hNamesBack⟩

theorem Yields.optional {phrase : Phrase α} {Good : α → Prop} (h : phrase.Yields Good) :
    (optional phrase).Yields fun value? => ∀ value ∈ value?, Good value := by
  rintro tokens value? hNames hPhrase value hValue
  cases hPhrase with
  | none => cases hValue
  | some hSome =>
    cases hValue
    exact h _ _ hNames hSome

theorem Yields.orEmpty {phrase : Phrase (List α)} {Good : α → Prop}
    (h : phrase.Yields fun values => ∀ value ∈ values, Good value) :
    (orEmpty phrase).Yields fun values => ∀ value ∈ values, Good value := by
  refine h.optional.bind fun values? hValues => yields_pure ?_
  cases values? with
  | none =>
    intro value hValue
    cases hValue
  | some values => exact hValues values rfl

theorem Yields.separated {separator : Phrase Unit} {phrase : Phrase α} {Good : α → Prop}
    (h : phrase.Yields Good) : (separated separator phrase).Yields fun values => ∀ value ∈ values, Good value := by
  refine h.bind fun first hFirst => ?_
  have hNext : (separator >>= fun _ => phrase).Yields Good := .skip fun _ => h
  exact hNext.many.bind fun others hOthers => yields_pure (List.forall_mem_cons.mpr ⟨hFirst, hOthers⟩)

theorem Yields.block {item : Phrase α} {Good : α → Prop} (h : item.Yields Good) :
    (block item).Yields fun items => ∀ item ∈ items, Good item :=
  Yields.skip fun _ => h.many.bind fun _ hItems => Yields.skip fun _ => yields_pure hItems

theorem Yields.optionalBlock {item : Phrase α} {Good : α → Prop} (h : item.Yields Good) :
    (optionalBlock item).Yields fun items => ∀ item ∈ items, Good item :=
  h.block.orEmpty

/-! ## Names and types -/

theorem yields_name : name.Yields fun n => isWord n = true := by
  intro tokens n hNames hName
  rw [name_iff] at hName
  exact hNames n (by simp [hName])

theorem yields_attributeName : attributeName.Yields fun n => isWord n = true := by
  rintro tokens n hNames ⟨t, rfl, hValue⟩
  dsimp only at hValue
  split at hValue
  · cases hValue
    exact hNames n List.mem_cons_self
  · split at hValue
    · cases hValue
      exact isWord_text _
    · cases hValue
  · cases hValue

theorem yields_word : word.Yields fun w => isWord w = true := by
  rintro tokens w hNames ⟨t, rfl, hValue⟩
  dsimp only at hValue
  split at hValue
  · cases hValue
    exact hNames w List.mem_cons_self
  · cases hValue
    exact isWord_text _
  · cases hValue

theorem yields_names : names.Yields fun texts => ∀ text ∈ texts, isWord text = true :=
  yields_name.separated

theorem yields_typeRef : typeRef.Yields fun type => isWord type.baseName = true := by
  refine .or ?_ (.or ?_ ?_)
  · exact .skip fun _ => .skip fun _ => .bind yields_name fun _ hName => .skip fun _ => yields_pure hName
  · exact .skip fun _ => .bind yields_name fun _ hName => yields_pure hName
  · exact .bind yields_name fun _ hName => yields_pure hName

/-! ## Members -/

theorem yields_attribute : attributeDecl.Yields fun decl => decl.toAttribute.WellFormed :=
  .bind yields_typeRef fun type hType => .bind yields_attributeName fun _ hName =>
    .skip fun _ => .skip fun _ => .skip fun _ => yields_pure ⟨hName, type, hType, rfl⟩

theorem yields_parameter : parameterDecl.Yields fun decl => decl.toParameter.WellFormed :=
  .bind yields_typeRef fun type hType => .bind yields_attributeName fun _ hName =>
    yields_pure ⟨hName, type, hType, rfl⟩

theorem yields_operation : operationDecl.Yields fun decl => decl.toOperation.WellFormed := by
  refine .skip fun _ => .bind (.optional yields_typeRef) fun returnType hReturnType => ?_
  refine .bind yields_attributeName fun name hName => .skip fun _ => ?_
  refine (yields_parameter.separated.orEmpty).bind fun parameters hParameters => .skip fun _ => .skip fun _ => ?_
  refine yields_pure ⟨hName, ?_, ?_⟩
  · intro type hType
    obtain ⟨ref, hRef, rfl⟩ := Option.map_eq_some_iff.mp hType
    exact ⟨ref, hReturnType ref hRef, rfl⟩
  · intro parameter hParameter
    obtain ⟨decl, hDecl, rfl⟩ := List.mem_map.mp hParameter
    exact hParameters decl hDecl

end Phrase

/-! ## Elements -/

def EntityItem.WellFormed : EntityItem → Prop
  | .root => True
  | .attribute decl => decl.toAttribute.WellFormed
  | .operation decl => decl.toOperation.WellFormed

def AggregateItem.WellFormed : AggregateItem → Prop
  | .responsibilities _ => True
  | .knowledgeLevel _ => True
  | .entity decl => decl.toEntity.WellFormed
  | .valueObject decl => decl.toObject.WellFormed
  | .domainEvent decl => decl.toObject.WellFormed
  | .command decl => decl.toObject.WellFormed
  | .service decl => decl.toService.WellFormed

def ContextItem.WellFormed : ContextItem → Prop
  | .visionStatement _ => True
  | .responsibilities _ => True
  | .implementationTechnology _ => True
  | .knowledgeLevel _ => True
  | .type _ => True
  | .aggregate decl => decl.toAggregate.WellFormed
  | .module decl => decl.toModule.WellFormed

def RelationshipItem.WellFormed (item : RelationshipItem) : Prop :=
  ∀ text ∈ item.names, isWord text = true

def MapItem.WellFormed : MapItem → Prop
  | .type word => isWord word = true
  | .state _ => True
  | .contains names => ∀ text ∈ names, isWord text = true
  | .relationship decl => decl.toRelationship.WellFormed

def Declaration.WellFormed : Declaration → Prop
  | .contextMap decl => decl.toMap.WellFormed
  | .boundedContext decl => decl.toContext.WellFormed

section Collected

variable {ι δ μ : Type} {items : List ι} {Good : ι → Prop} {get? : ι → Option δ} {f : δ → μ} {Better : μ → Prop}

theorem forall_collected (hItems : ∀ item ∈ items, Good item)
    (h : ∀ item decl, Good item → get? item = some decl → Better (f decl)) :
    ∀ member ∈ (items.filterMap get?).map f, Better member := by
  intro member hMember
  obtain ⟨decl, hDecl, rfl⟩ := List.mem_map.mp hMember
  obtain ⟨item, hItem, hGet⟩ := List.mem_filterMap.mp hDecl
  exact h item decl (hItems item hItem) hGet

theorem of_lastValue (Better : δ → Prop) (hItems : ∀ item ∈ items, Good item)
    (h : ∀ item value, Good item → get? item = some value → Better value) :
    ∀ value ∈ lastValue get? items, Better value := by
  intro value hValue
  obtain ⟨item, hItem, hGet⟩ := List.mem_filterMap.mp (List.mem_of_getLast? hValue)
  exact h item value (hItems item hItem) hGet

end Collected

namespace Phrase

theorem yields_entityItem : entityItem.Yields EntityItem.WellFormed :=
  .or (.skip fun _ => yields_pure trivial) (.or (.map yields_operation) (.map yields_attribute))

theorem yields_entity : entityDecl.Yields fun decl => decl.toEntity.WellFormed := by
  refine .skip fun _ => .bind yields_name fun name hName => ?_
  refine .bind (.optionalBlock yields_entityItem) fun items hItems => yields_pure ?_
  rw [EntityDecl.toEntity_eq]
  refine ⟨hName, forall_collected hItems ?_, forall_collected hItems ?_⟩
  all_goals
    intro item decl hItem hGet
    cases item <;> cases hGet
    exact hItem

theorem yields_object (kind : Keyword) : (objectDecl kind).Yields fun decl => decl.toObject.WellFormed := by
  refine .skip fun _ => .bind yields_name fun name hName => ?_
  refine .bind (.optionalBlock yields_attribute) fun attributes hAttributes => yields_pure ⟨hName, ?_⟩
  exact List.forall_mem_map.mpr hAttributes

theorem yields_service : serviceDecl.Yields fun decl => decl.toService.WellFormed := by
  refine .skip fun _ => .bind yields_name fun name hName => ?_
  refine .bind (.optionalBlock yields_operation) fun operations hOperations => yields_pure ⟨hName, ?_⟩
  exact List.forall_mem_map.mpr hOperations

theorem yields_aggregateItem : aggregateItem.Yields AggregateItem.WellFormed :=
  .or (.map (yields_trivial responsibilities)) (.or (.map (yields_trivial knowledgeLevel))
    (.or (.map yields_entity) (.or (.map (yields_object _)) (.or (.map (yields_object _))
      (.or (.map (yields_object _)) (.map yields_service))))))

theorem yields_aggregate : aggregateDecl.Yields fun decl => decl.toAggregate.WellFormed := by
  refine .skip fun _ => .bind yields_name fun name hName => ?_
  refine .bind (.block yields_aggregateItem) fun items hItems => yields_pure ?_
  rw [AggregateDecl.toAggregate_eq]
  refine ⟨hName, forall_collected hItems ?_, forall_collected hItems ?_, forall_collected hItems ?_,
    forall_collected hItems ?_, forall_collected hItems ?_⟩
  all_goals
    intro item decl hItem hGet
    cases item <;> cases hGet
    exact hItem

theorem yields_module : moduleDecl.Yields fun decl => decl.toModule.WellFormed := by
  refine .skip fun _ => .bind yields_name fun name hName => ?_
  refine .bind (.block yields_aggregate) fun aggregates hAggregates => yields_pure ⟨hName, ?_⟩
  exact List.forall_mem_map.mpr hAggregates

theorem yields_contextItem : contextItem.Yields ContextItem.WellFormed :=
  .or (.map (yields_trivial _)) (.or (.map (yields_trivial _)) (.or (.map (yields_trivial _))
    (.or (.map (yields_trivial _)) (.or (.map (yields_trivial _)) (.or (.map yields_aggregate)
      (.map yields_module))))))

theorem yields_context : contextDecl.Yields fun decl => decl.toContext.WellFormed := by
  refine .skip fun _ => .bind yields_name fun name hName => ?_
  refine .bind (.block yields_contextItem) fun items hItems => yields_pure ?_
  rw [ContextDecl.toContext_eq]
  refine ⟨hName, forall_collected hItems ?_, forall_collected hItems ?_⟩
  all_goals
    intro item decl hItem hGet
    cases item <;> cases hGet
    exact hItem

/-! ## Relationships, maps and documents -/

theorem yields_property {k : Keyword} {value : Phrase α} {Good : α → Prop} (h : value.Yields Good) :
    (property k value).Yields Good :=
  .skip fun _ => .skip fun _ => h

theorem yields_relationshipItem : relationshipItem.Yields RelationshipItem.WellFormed := by
  refine .or (.map (yields_property yields_names)) (.map fun _ _ _ _ text hText => ?_)
  cases hText

theorem wellFormed_directed {upstream downstream : String} (hUpstream : isWord upstream = true)
    (hDownstream : isWord downstream = true) (upstreamPatterns : List UpstreamPattern)
    (downstreamPatterns : List DownstreamPattern) {body : List RelationshipItem}
    (hBody : ∀ item ∈ body, item.WellFormed) :
    (RelationshipDecl.directed upstream downstream upstreamPatterns downstreamPatterns
      body).toRelationship.WellFormed := by
  rw [RelationshipDecl.toRelationship_directed]
  refine ⟨hUpstream, hDownstream, nodup_eraseDups _, nodup_eraseDups _, ?_⟩
  intro text hText
  obtain ⟨item, hItem, hText⟩ := List.mem_flatMap.mp hText
  exact hBody item hItem text hText

theorem yields_relationship : relationship.Yields fun decl => decl.toRelationship.WellFormed := by
  have hBody := yields_relationshipItem.optionalBlock
  refine .or ?_ (.or ?_ (.or ?_ ?_))
  · exact .bind yields_name fun _ hLeft => .skip fun _ => .bind yields_name fun _ hRight =>
      yields_pure ⟨hLeft, hRight⟩
  · exact .bind yields_name fun _ hLeft => .skip fun _ => .skip fun _ => .skip fun _ =>
      .bind yields_name fun _ hRight => yields_pure ⟨hLeft, hRight⟩
  · exact .bind yields_name fun _ hUpstream => .skip fun _ => .skip fun _ => .skip fun _ =>
      .bind yields_name fun _ hDownstream => hBody.bind fun _ hItems =>
        yields_pure (wellFormed_directed hUpstream hDownstream _ _ hItems)
  · exact .bind yields_name fun _ hDownstream => .skip fun _ => .skip fun _ => .skip fun _ =>
      .bind yields_name fun _ hUpstream => hBody.bind fun _ hItems =>
        yields_pure (wellFormed_directed hUpstream hDownstream _ _ hItems)

theorem yields_mapItem : mapItem.Yields MapItem.WellFormed :=
  .or (.map (yields_property yields_word)) (.or (.map (yields_trivial _))
    (.or (.map (.skip fun _ => yields_names)) (.map yields_relationship)))

theorem yields_map : mapDecl.Yields fun decl => decl.toMap.WellFormed := by
  refine .skip fun _ => .bind (.optional yields_name) fun name? hName => ?_
  refine .bind (.block yields_mapItem) fun items hItems => yields_pure ?_
  rw [MapDecl.toMap_eq]
  refine ⟨hName, of_lastValue _ hItems ?_, ?_, forall_collected hItems ?_⟩
  · intro item word hItem hGet
    cases item <;> cases hGet
    exact hItem
  · intro text hText
    obtain ⟨item, hItem, hText⟩ := List.mem_flatMap.mp hText
    cases item with
    | contains names => exact hItems _ hItem text hText
    | _ => cases hText
  · intro item decl hItem hGet
    cases item <;> cases hGet
    exact hItem

theorem yields_document : document.Yields fun declarations => (Model.ofDeclarations declarations).WellFormed := by
  intro tokens declarations hNames hDocument
  have hDeclaration : declaration.Yields Declaration.WellFormed := .or (.map yields_map) (.map yields_context)
  have hItems := hDeclaration.many tokens declarations hNames hDocument
  rw [Model.ofDeclarations_eq]
  refine ⟨rfl, ?_, forall_collected hItems ?_⟩
  · intro map hMap
    obtain ⟨decl, hDecl, rfl⟩ := Option.map_eq_some_iff.mp hMap
    refine of_lastValue (fun decl : MapDecl => decl.toMap.WellFormed) hItems ?_ decl hDecl
    intro item decl hItem hGet
    cases item <;> cases hGet
    exact hItem
  · intro item decl hItem hGet
    cases item <;> cases hGet
    exact hItem

end Phrase

end DomainAtlas
