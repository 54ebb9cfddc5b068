import DomainAtlas.Proofs.Model.WellNamed
import DomainAtlas.Proofs.Printing.Elements

/-! # Context maps as written

The canonical form has one notation for each kind of relationship: keywords for the symmetric ones, a forward
arrow with both roles for the directed ones. Patterns are written as often as they are repeated, and read once.
-/
set_option autoImplicit false

namespace DomainAtlas

open Text Printer

namespace Phrase

/-! ## Symmetric relationships -/

theorem spelt_symmetric (kind : SymmetricKind) {first second : String} (hFirst : isWord first = true)
    (hSecond : isWord second = true) :
    wordedRelationship.Spelt EndsWord
      (writtenName first ++ " " ++ kind.keyword.text ++ " " ++ writtenName second)
      (.symmetric kind first second) := by
  have hKind : (keywordValue SymmetricKind.ofKeyword?).Spelt EndsWord kind.keyword.text kind := by
    cases kind <;> exact spelt_keywordValue rfl
  have hTail (kind : SymmetricKind) : (do
      let right ← name
      return RelationshipDecl.symmetric kind first right).Spelt EndsWord (writtenName second)
      (.symmetric kind first second) :=
    (spelt_name hSecond).map (RelationshipDecl.symmetric kind first)
  have hBoth : wordedRelationship.Spelt EndsWord _ _ :=
    (spelt_name hFirst).bindSpace (hKind.bindSpace (hTail kind))
  simpa only [String.append_assoc] using hBoth

/-! ## Directed relationships -/

theorem endsBefore_join_append {marked : List String} {last : String} (h : ∀ text ∈ marked, EndsBefore text)
    (hLast : EndsBefore last) : EndsBefore (String.join marked ++ last) := by
  cases marked with
  | nil => simpa using hLast
  | cons first others =>
    rw [String.join_cons, String.append_assoc]
    exact (h first List.mem_cons_self).append _

theorem spelt_roles {α : Type} {side long : Keyword} {ofKeyword? : Keyword → Option α} {keyword : α → Keyword}
    (hKeyword : ∀ pattern, ofKeyword? (keyword pattern) = some pattern) (patterns : List α) :
    (roles side long (keywordValue ofKeyword?)).Spelt anyText (rolesText side (patterns.map keyword)) patterns := by
  have hComma : (symbol .comma).Spelt anyText "," () := spelt_symbol (s := .comma) fun _ => trivial
  have hEnds : EndsBefore "," := ⟨',', [], rfl, by decide⟩
  have hPattern : ∀ pattern ∈ patterns, (keywordValue ofKeyword?).Spelt EndsWord (keyword pattern).text pattern :=
    fun pattern _ => spelt_keywordValue (hKeyword pattern)
  have hPatterns := spelt_marked_self hComma hEnds hPattern
  have hClose : (do symbol .rightBracket; return patterns : Phrase (List α)).Spelt anyText ("]" ++ "") patterns :=
    (spelt_symbol (s := .rightBracket) fun _ => trivial).bind (spelt_pure patterns anyText)
  have hBracket : EndsBefore ("]" ++ "") := EndsBefore.append ⟨']', [], rfl, by decide⟩ ""
  have hOpen : (symbol .leftBracket).Spelt anyText "[" () := spelt_symbol (s := .leftBracket) fun _ => trivial
  have hAll : (roles side long (keywordValue ofKeyword?)).Spelt anyText ("[" ++ (side.text
      ++ (String.join (patterns.map fun pattern => "," ++ (keyword pattern).text) ++ ("]" ++ "")))) patterns := by
    refine hOpen.bind (((spelt_keyword side).inl _).bindText
      (hPatterns.bindText hClose hBracket) (endsBefore_join_append ?_ hBracket))
    intro marked hMarked
    obtain ⟨pattern, -, rfl⟩ := List.mem_map.mp hMarked
    exact hEnds.append _
  have hText : rolesText side (patterns.map keyword) = "[" ++ (side.text
      ++ (String.join (patterns.map fun pattern => "," ++ (keyword pattern).text) ++ ("]" ++ ""))) := by
    rw [rolesText, List.map_cons, intercalate_cons, List.map_map, List.map_map]
    simp only [String.append_assoc, String.append_empty]
    rfl
  rw [hText]
  exact hAll

theorem spelt_upstreamRoles (patterns : List UpstreamPattern) :
    upstreamRoles.Spelt anyText (rolesText .u (patterns.map UpstreamPattern.keyword)) patterns :=
  spelt_roles (fun pattern => by cases pattern <;> rfl) patterns

theorem spelt_downstreamRoles (patterns : List DownstreamPattern) :
    downstreamRoles.Spelt anyText (rolesText .d (patterns.map DownstreamPattern.keyword)) patterns :=
  spelt_roles (fun pattern => by cases pattern <;> rfl) patterns

/-- What stands before the body of a relationship with a forward arrow. -/
def forwardHeader : Phrase (List RelationshipItem → RelationshipDecl) := do
  let upstream ← name
  let upstreamPatterns ← orEmpty upstreamRoles
  symbol .arrow
  let downstreamPatterns ← orEmpty downstreamRoles
  let downstream ← name
  return .directed upstream downstream upstreamPatterns downstreamPatterns

theorem forwardRelationship_eq :
    forwardRelationship = forwardHeader >>= fun build => build <$> optionalBlock relationshipItem := by
  simp only [forwardHeader, bind_assoc, pure_bind]
  rfl

theorem spelt_forwardHeader {upstream downstream : String} (hUpstream : isWord upstream = true)
    (hDownstream : isWord downstream = true) (upstreamPatterns : List UpstreamPattern)
    (downstreamPatterns : List DownstreamPattern) :
    forwardHeader.Spelt EndsWord
      (writtenName upstream ++ " " ++ rolesText .u (upstreamPatterns.map UpstreamPattern.keyword) ++ " -> "
        ++ rolesText .d (downstreamPatterns.map DownstreamPattern.keyword) ++ " " ++ writtenName downstream)
      (.directed upstream downstream upstreamPatterns downstreamPatterns) := by
  have hArrow : (symbol .arrow).Spelt anyText "-> " () :=
    ((spelt_symbol (s := .arrow) fun _ => trivial).closed EndsWord).beforeSpace
  have hUpstreamRoles := ((spelt_upstreamRoles upstreamPatterns).orEmpty).closed EndsWord
  have hDownstreamRoles := ((spelt_downstreamRoles downstreamPatterns).orEmpty).closed EndsWord
  have hHeader : forwardHeader.Spelt EndsWord _ _ :=
    (spelt_name hUpstream).bindSpace (hUpstreamRoles.bindSpace (hArrow.bind
      (hDownstreamRoles.bindSpace ((spelt_name hDownstream).map
        fun downstream => RelationshipDecl.directed upstream downstream upstreamPatterns downstreamPatterns))))
  have hSpaces : " -> " = " " ++ "-> " := rfl
  simpa only [hSpaces, String.append_assoc] using hHeader

theorem laid_forwardRelationship {relationship : DirectedRelationship} (h : relationship.WellNamed) :
    ∃ decl : RelationshipDecl, decl.toRelationship = .directed relationship.distinctPatterns ∧
      forwardRelationship.Laid (relationshipLayout (.directed relationship)) decl := by
  obtain ⟨upstream, downstream, upstreamPatterns, downstreamPatterns, exposed, technology⟩ := relationship
  have hExposed : relationshipItem.Listed (listLine "exposedAggregates = " exposed nameList)
      (listItem .exposedAggregates exposed) :=
    listed_listLine fun hExposed => ((spelt_property .exposedAggregates
      (spelt_names hExposed h.exposedAggregates)).map _).inl _
  have hTechnology : relationshipItem.Listed (technologyLine technology)
      (technology.toList.map .implementationTechnology) :=
    listed_optionalLine (fun text => ((spelt_technology text).map _).inr _) technology
  have hLaid := laid_memberBlock id
    (spelt_forwardHeader h.upstream h.downstream upstreamPatterns downstreamPatterns)
    (hExposed.append hTechnology)
  refine ⟨.directed upstream downstream upstreamPatterns downstreamPatterns _, ?_, forwardRelationship_eq ▸ hLaid⟩
  rw [RelationshipDecl.toRelationship_directed]
  cases exposed <;>
    simp [DirectedRelationship.distinctPatterns, listItem, lastValue_cons, lastValue_map, lastValue_toList,
      List.flatMap_map, flatMap_empty, RelationshipItem.names, RelationshipItem.technology?]

theorem laid_relationship {relationship : Relationship} (h : relationship.WellNamed) :
    ∃ decl : RelationshipDecl, decl.toRelationship = relationship.distinctPatterns ∧
      Phrase.relationship.Laid (relationshipLayout relationship) decl := by
  cases relationship with
  | symmetric kind first second =>
    exact ⟨.symmetric kind first second, rfl, laid_line ((spelt_symmetric kind h.1 h.2).inl _)⟩
  | directed relationship =>
    obtain ⟨decl, hDecl, hLaid⟩ := laid_forwardRelationship h
    exact ⟨decl, hDecl, fun width depth => (((hLaid width depth).inl _).inr _).inr _⟩

/-! ## Maps and documents -/

/-- What stands before the body of a context map. -/
def mapHeader : Phrase (Option String) := do
  keyword .contextMap
  optional name

theorem mapDecl_eq : mapDecl = mapHeader >>= fun name => MapDecl.mk name <$> block mapItem :=
  (bind_assoc ..).symm

def mapTitle : Option String → String
  | some name => "ContextMap " ++ writtenName name
  | none => "ContextMap"

theorem spelt_mapHeader {name? : Option String} (h : ∀ name ∈ name?, isWord name = true) :
    mapHeader.Spelt EndsWord (mapTitle name?) name? := by
  have hKeyword : (keyword .contextMap).Spelt EndsWord "ContextMap" () :=
    spelt_keyword .contextMap
  cases name? with
  | none =>
    have hBare : mapHeader.Spelt EndsWord ("ContextMap" ++ "") none :=
      hKeyword.bindTrailing ⟨[], optional.none, spells_empty EndsWord⟩ trails_empty
    exact hBare
  | some name => exact hKeyword.bindSpace (spelt_name (h name rfl)).some

theorem laid_map {map : ContextMap} (h : map.WellNamed) :
    ∃ decl : MapDecl, decl.toMap = map.distinctPatterns ∧ mapDecl.Laid (mapLayout map) decl := by
  obtain ⟨name, type, state, contained, relationships⟩ := map
  obtain ⟨decls, hDecls, hRelationships⟩ := exists_forall₂_map fun relationship hRelationship =>
    laid_relationship (h.relationships relationship hRelationship)
  have hType : mapItem.Listed (optionalLine "type" type id) (type.toList.map .type) := by
    cases type with
    | none => exact .nil
    | some word =>
      have hWord := spelt_property .type (spelt_word (h.mapType word rfl))
      exact .cons ((hWord.map MapItem.type).inl _) .nil
  have hState : mapItem.Listed ["state = " ++ state.keyword.text] [.state state] := by
    have hValue : (keywordValue MapState.ofKeyword?).Spelt EndsWord state.keyword.text state := by
      cases state <;> exact spelt_keywordValue rfl
    have hProperty := spelt_property .state hValue
    exact .cons (((hProperty.map MapItem.state).inl _).inr _) .nil
  have hContained : mapItem.Listed (listLine "contains " contained nameList) (listItem .contains contained) := by
    refine listed_listLine fun hContained => ?_
    have hNames : Phrase.contained.Spelt EndsWord _ contained :=
      (spelt_keyword .contains).bindSpace (spelt_names hContained h.contains)
    exact (((hNames.map MapItem.contains).inl _).inr _).inr _
  have hRelationshipItems : mapItem.Nested _ (decls.map .relationship) :=
    Nested.wrap hRelationships fun _ _ h => .inr (.inr (.inr (mapped h _)))
  have hLaid := laid_block MapDecl.mk (spelt_mapHeader h.name) ((hType.append hState).append hContained)
    hRelationshipItems
  rw [← mapDecl_eq] at hLaid
  refine ⟨_, ?_, hLaid⟩
  rw [MapDecl.toMap_eq, ContextMap.distinctPatterns, ← hDecls]
  cases contained <;>
    simp [listItem, lastValue_cons, lastValue_append, lastValue_map, lastValue_toList, lastValue_none,
      Function.comp_def, List.filterMap_cons, List.flatMap_map, flatMap_empty, MapItem.type?, MapItem.state?,
      MapItem.names, MapItem.relationship?]

/-- The canonical text of a model that is well-named with its types in canonical form is a document with at most one
map, for this form of the model but for repeated patterns. -/
theorem spelt_document {model : Model} (h : (model.mapTypes canonicalType).WellNamed) (width : Nat) :
    ∃ declarations, Model.ofDeclarations declarations = (model.mapTypes canonicalType).distinctPatterns ∧
      (declarations.filterMap Declaration.map?).length ≤ 1 ∧
      document.Spelt anyText (model.print width) declarations := by
  obtain ⟨name, map, contexts⟩ := model
  obtain rfl : name = "" := h.name
  obtain ⟨decls, hDecls, hContexts⟩ := nested_map (fun _ => laid_context) h.boundedContexts
  obtain ⟨maps, hMaps, hMapLayouts⟩ := exists_forall₂_map fun decl (hMap : decl ∈ map.toList) =>
    laid_map (h.contextMap decl (Option.mem_toList.mp hMap))
  have hMapItems : declaration.Nested _ (maps.map .contextMap) :=
    Nested.wrap hMapLayouts fun _ _ h => .inl (mapped h _)
  have hContextItems : declaration.Nested _ (decls.map .boundedContext) :=
    Nested.wrap hContexts fun _ _ h => .inr (mapped h _)
  have hOnlyMaps : (maps.map Declaration.contextMap ++ decls.map Declaration.boundedContext).filterMap
      Declaration.map? = maps := by
    simp [Function.comp_def, Declaration.map?]
  refine ⟨_, ?_, ?_, (hMapItems.append hContextItems).spelt width 0 true⟩
  · rw [Model.ofDeclarations_eq, lastValue, hOnlyMaps, Model.mapTypes, ← hDecls]
    cases map with
    | none =>
      obtain rfl : maps = [] := List.map_eq_nil_iff.mp hMaps
      simp [Function.comp_def, Declaration.context?, Model.distinctPatterns]
    | some map =>
      obtain ⟨decl, rfl, hDecl⟩ := List.map_eq_singleton_iff.mp hMaps
      simp [List.filterMap_cons, Function.comp_def, Declaration.context?, hDecl, Model.distinctPatterns]
  · rw [hOnlyMaps]
    have hLength : maps.length = map.toList.length := by
      rw [← List.length_map MapDecl.toMap, hMaps, List.length_map]
    rw [hLength]
    cases map <;> simp

end Phrase

end DomainAtlas
