import DomainAtlas.Proofs.Grammar.Locality
import DomainAtlas.Proofs.Grammar.Maps

/-! # Productions stop before declarations

Only `word` takes every keyword, and only the type of a context map is a word. So all productions stop before a
keyword that opens a declaration, but for a context map that breaks off where the word for its type is due.
-/
set_option autoImplicit false

namespace DomainAtlas

open Grammar

/-! ## Words -/

theorem opensDeclaration_iff {t : Token} :
    opensDeclaration t = true ↔ t = .keyword .contextMap ∨ t = .keyword .boundedContext := by
  simp [opensDeclaration]

theorem local_symbol (s : Symbol) : Local (Grammar.symbol s) Interior := by
  refine .token _ fun t ht => ?_
  rcases opensDeclaration_iff.mp ht with rfl | rfl <;> rfl

theorem local_keyword {k : Keyword} (h : opensDeclaration (.keyword k) = false) :
    Local (Grammar.keyword k) Interior := by
  refine .token _ fun t ht => if_neg ?_
  rintro rfl
  rw [h] at ht
  cases ht

theorem local_keywordValue {α : Type} (expected : Expected) {value? : Keyword → Option α}
    (hMap : value? .contextMap = none) (hContext : value? .boundedContext = none) :
    Local (Grammar.keywordValue expected value?) Interior := by
  refine .token _ fun t ht => ?_
  rcases opensDeclaration_iff.mp ht with rfl | rfl
  · exact hMap
  · exact hContext

theorem local_name : Local Grammar.name Interior := by
  refine .token _ fun t ht => ?_
  rcases opensDeclaration_iff.mp ht with rfl | rfl <;> rfl

theorem local_attributeName : Local Grammar.attributeName Interior := by
  refine .token _ fun t ht => ?_
  rcases opensDeclaration_iff.mp ht with rfl | rfl <;> decide

theorem local_string : Local Grammar.string Interior := by
  refine .token _ fun t ht => ?_
  rcases opensDeclaration_iff.mp ht with rfl | rfl <;> rfl

/-- Where a word is due it may be the keyword. -/
theorem local_word : Local Grammar.word (Free (pure ())) :=
  .tokenOn _ fun hFree => absurd ⟨rfl, rfl⟩ hFree.2

theorem local_names : Local Grammar.names Interior :=
  (local_symbol .comma).separated local_name

theorem local_strings : Local Grammar.strings Interior :=
  (local_symbol .comma).separated local_string

variable {α : Type} {reader : Reader Token α}

theorem Local.block (h : Local reader Interior) : Local (Grammar.block reader) Interior :=
  (local_symbol .leftBrace).bind fun _ => h.many.bind fun _ => (local_symbol .rightBrace).map _

theorem Local.optionalBlock (h : Local reader Interior) : Local (Grammar.optionalBlock reader) Interior :=
  h.block.orEmpty

theorem Local.property {k : Keyword} (hKeyword : opensDeclaration (.keyword k) = false)
    (h : Local reader Interior) : Local (Grammar.property k reader) Interior :=
  (local_keyword hKeyword).bind fun _ => ((local_symbol .equals).bind fun _ => h).commit

/-! ## Members -/

theorem local_collectionKind : Local Grammar.collectionKind Interior :=
  local_keywordValue _ rfl rfl

theorem local_collectionElement : Local Grammar.collectionElement Interior where
  suffix tokens := by
    rw [Grammar.collectionElement, skipTrivia_tokens]
    split
    · exact List.suffix_refl tokens
    · exact Local.suffix local_name tokens
  before {tokens next} hInterior hNext := by
    simp only [Grammar.collectionElement, skipTrivia_tokens, Local.before local_collectionKind hInterior hNext]
    cases collectionKind tokens with
    | accepted value rest => rfl
    | declined mismatch => exact Local.before local_name hInterior hNext
    | refused mismatch => exact Local.before local_name hInterior hNext

theorem local_collectionType : Local Grammar.collectionType Interior :=
  Local.bind local_collectionKind fun _ => ((local_symbol .lessThan).bind fun _ =>
    Local.bind local_collectionElement fun _ => (local_symbol .greaterThan).map _).commit

theorem local_referenceType : Local Grammar.referenceType Interior :=
  (local_symbol .dash).bind fun _ => (Local.map local_name _).commit

theorem local_typeRef : Local Grammar.typeRef Interior :=
  (Local.orElse local_collectionType (Local.orElse local_referenceType (Local.map local_name _))).expecting _

theorem local_semicolon (value : α) :
    Local (do let _ ← Reader.optional (Grammar.symbol .semicolon); return value) Interior :=
  (local_symbol .semicolon).optional.map _

theorem local_attributeDecl : Local Grammar.attributeDecl Interior :=
  Local.bind local_typeRef fun _ => (Local.bind local_attributeName fun _ =>
    (local_keyword (by decide)).present.bind fun _ => (local_keyword (by decide)).present.bind fun _ =>
      local_semicolon _).commit

theorem local_parameterDecl : Local Grammar.parameterDecl Interior :=
  Local.bind local_typeRef fun _ => Local.map local_attributeName _

theorem local_operationDecl : Local Grammar.operationDecl Interior := by
  have hTyped : Local Grammar.typedName Interior :=
    Local.bind local_typeRef fun _ => Local.map local_attributeName _
  have hBare : Local Grammar.bareName Interior := Local.map local_attributeName _
  have hParameters := ((local_symbol .comma).separated local_parameterDecl).orEmpty
  refine (local_keyword (by decide)).bind fun _ => Local.commit ?_
  exact (hTyped.orElse hBare).bind fun _ => (local_symbol .leftParen).bind fun _ => hParameters.bind fun _ =>
    (local_symbol .rightParen).bind fun _ => local_semicolon _

theorem local_entityItem : Local Grammar.entityItem Interior :=
  ((local_keyword (by decide)).map _).orElse
    ((Local.map local_operationDecl _).orElse (Local.map local_attributeDecl _))

/-- A keyword, a name, and a body that may depend on it. -/
theorem local_titled {k : Keyword} {body : String → Reader Token α} (hKeyword : opensDeclaration (.keyword k) = false)
    (h : ∀ name, Local (body name) Interior) :
    Local (Grammar.keyword k >>= fun _ => Reader.commit (Grammar.name >>= body)) Interior :=
  (local_keyword hKeyword).bind fun _ => (Local.bind local_name h).commit

theorem local_entityDecl : Local Grammar.entityDecl Interior :=
  local_titled (by decide) fun _ => (Local.optionalBlock local_entityItem).map _

theorem local_objectDecl {kind : Keyword} (h : opensDeclaration (.keyword kind) = false) :
    Local (Grammar.objectDecl kind) Interior :=
  local_titled h fun _ => (Local.optionalBlock local_attributeDecl).map _

theorem local_serviceDecl : Local Grammar.serviceDecl Interior :=
  local_titled (by decide) fun _ => (Local.optionalBlock local_operationDecl).map _

/-! ## Contexts -/

theorem local_responsibilities : Local Grammar.responsibilities Interior :=
  Local.property (by decide) local_strings

theorem local_knowledgeLevel : Local Grammar.knowledgeLevel Interior :=
  (local_keywordValue _ rfl rfl).property (by decide)

theorem local_implementationTechnology : Local Grammar.implementationTechnology Interior :=
  Local.property (by decide) local_string

theorem local_aggregateItem : Local Grammar.aggregateItem Interior :=
  (Local.map local_responsibilities _).orElse <| (Local.map local_knowledgeLevel _).orElse <|
    (Local.map local_entityDecl _).orElse <| ((local_objectDecl (by decide)).map _).orElse <|
    ((local_objectDecl (by decide)).map _).orElse <| ((local_objectDecl (by decide)).map _).orElse <|
    Local.map local_serviceDecl _

theorem local_aggregateDecl : Local Grammar.aggregateDecl Interior :=
  local_titled (by decide) fun _ => (Local.block local_aggregateItem).map _

theorem local_moduleDecl : Local Grammar.moduleDecl Interior :=
  local_titled (by decide) fun _ => (Local.block local_aggregateDecl).map _

theorem local_contextItem : Local Grammar.contextItem Interior :=
  ((Local.property (by decide) local_string).map _).orElse <| (Local.map local_responsibilities _).orElse <|
    (Local.map local_implementationTechnology _).orElse <| (Local.map local_knowledgeLevel _).orElse <|
    (((local_keywordValue _ rfl rfl).property (by decide)).map _).orElse <|
    (Local.map local_aggregateDecl _).orElse <| Local.map local_moduleDecl _

/-! ## Relationships -/

theorem local_symmetricMark : Local Grammar.symmetricMark Interior :=
  (local_symbol .leftBracket).bind fun _ => (local_keywordValue _ rfl rfl).bind fun _ =>
    (local_symbol .rightBracket).map _

theorem local_wordedRelationship : Local Grammar.wordedRelationship Interior :=
  Local.bind local_name fun _ => (local_keywordValue _ rfl rfl).bind fun _ => (Local.map local_name _).commit

theorem local_markedRelationship : Local Grammar.markedRelationship Interior :=
  Local.bind local_name fun _ => Local.bind local_symmetricMark fun _ => (local_symbol .doubleArrow).bind fun _ =>
    (((Local.satisfying local_symmetricMark _).expecting _).bind fun _ => Local.map local_name _).commit

theorem local_roles {short long : Keyword} (hShort : opensDeclaration (.keyword short) = false)
    (hLong : opensDeclaration (.keyword long) = false) (h : Local reader Interior) :
    Local (Grammar.roles short long reader) Interior :=
  (local_symbol .leftBracket).bind fun _ => ((local_keyword hShort).orElse (local_keyword hLong)).bind fun _ =>
    (((local_symbol .comma).bind fun _ => h.commit).many.bind fun _ => (local_symbol .rightBracket).map _).commit

theorem local_upstreamRoles : Local Grammar.upstreamRoles Interior :=
  local_roles (by decide) (by decide) (local_keywordValue _ rfl rfl)

theorem local_downstreamRoles : Local Grammar.downstreamRoles Interior :=
  local_roles (by decide) (by decide) (local_keywordValue _ rfl rfl)

theorem local_relationshipItem : Local Grammar.relationshipItem Interior :=
  ((Local.property (by decide) local_names).map _).orElse (Local.map local_implementationTechnology _)

theorem local_forwardRelationship : Local Grammar.forwardRelationship Interior :=
  Local.bind local_name fun _ => (Local.orEmpty local_upstreamRoles).bind fun _ =>
    (local_symbol .arrow).bind fun _ => ((Local.orEmpty local_downstreamRoles).bind fun _ =>
      (Local.expecting local_name _).bind fun _ => (Local.optionalBlock local_relationshipItem).map _).commit

theorem local_backwardRelationship : Local Grammar.backwardRelationship Interior :=
  Local.bind local_name fun _ => (Local.orEmpty local_downstreamRoles).bind fun _ =>
    (local_symbol .leftArrow).bind fun _ => ((Local.orEmpty local_upstreamRoles).bind fun _ =>
      (Local.expecting local_name _).bind fun _ => (Local.optionalBlock local_relationshipItem).map _).commit

theorem local_relationship : Local Grammar.relationship Interior :=
  (Local.orElse local_wordedRelationship <| Local.orElse local_markedRelationship <|
    Local.orElse local_forwardRelationship local_backwardRelationship).expecting _

/-! ## Context maps -/

theorem local_typeItem : Local (Grammar.property .type Grammar.word) (Free (Phrase.property .type (pure ()))) :=
  (local_keyword (by decide)).bindFree (Item.toReads (item_keyword .type)) fun _ =>
    ((local_symbol .equals).bindFree (Item.toReads (item_symbol .equals)) fun _ => local_word).commit

theorem local_contained : Local Grammar.contained Interior :=
  (local_keyword (by decide)).bind fun _ => Local.commit local_names

theorem local_mapItem : Local Grammar.mapItem (Free (Phrase.property .type (pure ()))) := by
  have hState : Local (Grammar.property .state (Grammar.keywordValue .mapState MapState.ofKeyword?)) Interior :=
    (local_keywordValue _ rfl rfl).property (by decide)
  exact (Local.map local_typeItem _).orElse <| ((hState.map _).free _).orElse <|
    ((Local.map local_contained _).free _).orElse <| (Local.map local_relationship _).free _

/-- The body of a context map that breaks off where the word for its type is due. -/
def Phrase.untypedBody : Phrase Unit := do
  let _ ← optional name
  symbol .leftBrace
  let _ ← many mapItem
  property .type (pure ())

def Phrase.untypedMap : Phrase Unit := do
  keyword .contextMap
  untypedBody

theorem exists_of_untypedMap {tokens : List Token} (h : Phrase.untypedMap tokens ()) :
    ∃ inner, tokens = .keyword .contextMap :: inner ++ [.keyword .type, .symbol .equals] := by
  obtain ⟨_, _, _, rfl, hKeyword, name, _, _, rfl, -, brace, _, _, rfl, -, items, _, _, rfl, -, hType⟩ := h
  obtain ⟨_, _, _, rfl, hType, _, _, _, rfl, hEquals, rfl, -⟩ := hType
  rw [Phrase.keyword_iff.mp hKeyword, Phrase.keyword_iff.mp hType, Phrase.symbol_iff.mp hEquals]
  exact ⟨name ++ (brace ++ items), by simp⟩

/-- What follows the keyword of a context map. -/
def Grammar.mapBody : Reader Token MapDecl := do
  let name ← Reader.optional name
  let items ← block mapItem
  return { name, items }

/-- What follows the keyword of a bounded context. -/
def Grammar.contextBody : Reader Token ContextDecl := do
  let name ← name
  let items ← block contextItem
  return { name, items }

theorem local_mapBody : Local Grammar.mapBody (Free Phrase.untypedBody) := by
  have hItems := Local.manyFree local_mapItem (Item.toReads item_mapItem)
  have hBlock : Local (Grammar.block Grammar.mapItem)
      (Free (do Phrase.symbol .leftBrace; let _ ← Phrase.many Phrase.mapItem; Phrase.property .type (pure ()))) :=
    (local_symbol .leftBrace).bindFree (Item.toReads (item_symbol .leftBrace)) fun _ =>
      hItems.bindCut fun _ => (local_symbol .rightBrace).map _
  exact (Local.optional local_name).bindFree (Item.optional item_name) fun _ => hBlock.map _

theorem local_contextBody : Local Grammar.contextBody Interior :=
  Local.bind local_name fun _ => (Local.block local_contextItem).map _

/-! ## Declarations -/

theorem declaration_contextMap : (fun tokens => Grammar.declaration (.keyword .contextMap :: tokens)) =
    Declaration.contextMap <$> Reader.expecting .contextMap (Reader.commit Grammar.mapBody) := by
  funext tokens
  have hAfter : Grammar.mapDecl (.keyword .contextMap :: tokens) = Reader.commit Grammar.mapBody tokens := rfl
  simp only [Grammar.declaration, HOrElse.hOrElse, OrElse.orElse, Reader.orElse, Functor.map, Reader.expecting,
    hAfter, Reader.commit]
  cases Grammar.mapBody tokens <;> rfl

theorem declaration_boundedContext : (fun tokens => Grammar.declaration (.keyword .boundedContext :: tokens)) =
    Declaration.boundedContext <$> Reader.expecting .boundedContext (Reader.commit Grammar.contextBody) := by
  funext tokens
  have hAfter : Grammar.contextDecl (.keyword .boundedContext :: tokens) =
      Reader.commit Grammar.contextBody tokens := rfl
  obtain ⟨mismatch, hDeclined⟩ := ((Item.expecting item_mapDecl .contextMap).map Declaration.contextMap).declines
    (.keyword .boundedContext :: tokens) (clear_cons.mpr (by decide))
  rw [Grammar.declaration, Reader.orElse_eq_of_declined hDeclined]
  simp only [HOrElse.hOrElse, OrElse.orElse, Reader.orElse, Functor.map, Reader.expecting, hAfter, Reader.commit]
  cases Grammar.contextBody tokens <;> rfl

theorem declaration_eq_of_stray {t : Token} (h : opensDeclaration t = false) (others : List Token) :
    Grammar.declaration (t :: others) = .declined ⟨.unexpected [.declaration], t :: others⟩ := by
  have hNeither : ¬ (t = .keyword .contextMap ∨ t = .keyword .boundedContext) := fun hEither => by
    rw [opensDeclaration_iff.mpr hEither] at h
    cases h
  obtain ⟨_, hMap⟩ := ((Item.expecting item_mapDecl .contextMap).map Declaration.contextMap).declines
    (t :: others) (clear_cons.mpr fun hKeyword => hNeither (.inl hKeyword))
  obtain ⟨_, hContext⟩ := ((Item.expecting item_contextDecl .boundedContext).map
    Declaration.boundedContext).declines (t :: others) (clear_cons.mpr fun hKeyword => hNeither (.inr hKeyword))
  rw [Grammar.declaration, Reader.orElse_eq_of_declined hMap, Reader.orElse_eq_of_declined hContext]
  rfl

/-- What a declaration makes of the tokens after its keyword. -/
theorem local_declaration {t : Token} (hOpens : opensDeclaration t = true) :
    Local (fun tokens => Grammar.declaration (t :: tokens))
      fun tokens => Interior tokens ∧ ¬ Phrase.untypedMap (t :: tokens) () := by
  rcases opensDeclaration_iff.mp hOpens with rfl | rfl
  · rw [declaration_contextMap]
    refine (((Local.commit local_mapBody).expecting _).map _).mono ?_
    rintro tokens ⟨hInterior, hUntyped⟩
    refine ⟨hInterior, fun hBody => hUntyped ?_⟩
    exact ⟨[.keyword .contextMap], tokens, (), rfl, ⟨_, rfl, rfl⟩, hBody⟩
  · rw [declaration_boundedContext]
    exact (((Local.commit local_contextBody).expecting _).map _).mono fun _ hTokens => hTokens.1

end DomainAtlas
