import DomainAtlas.Grammar.Maps
import DomainAtlas.Proofs.Grammar.Contexts

/-! # Readers of context maps and declarations

Each reader of `Grammar.Maps` reads the production of its name. The four forms of a relationship all
start with a name; the tokens after the name tell them apart, and no reader commits before it has seen
them.
-/
set_option autoImplicit false

namespace DomainAtlas

open Grammar

/-! ## Symmetric relationships -/

theorem item_wordedRelationship :
    Item Grammar.wordedRelationship Phrase.wordedRelationship isName noToken := by
  apply Item.bind item_name
  intro left
  apply Item.reads_bind (item_keywordValue .symmetricKind SymmetricKind.ofKeyword?)
  intro kind
  exact (Item.reads_map item_name _).commit

theorem item_symmetricMark :
    Item Grammar.symmetricMark Phrase.symmetricMark (· = .symbol .leftBracket) noToken := by
  apply (item_symbol .leftBracket).bind
  intro _
  apply Item.reads_bind (item_keywordValue .symmetricMark SymmetricKind.ofMark?)
  intro kind
  exact Item.reads_map (item_symbol .rightBracket) _

theorem item_markedRelationship :
    Item Grammar.markedRelationship Phrase.markedRelationship isName noToken := by
  apply Item.bind item_name
  intro left
  apply Item.reads_bind item_symmetricMark
  intro kind
  apply Item.reads_bind (item_symbol .doubleArrow)
  intro _
  apply Reads.commit
  have hMark := (Item.toReads item_symmetricMark).satisfying (· == kind) (· = kind) fun _ => beq_iff_eq
  apply (hMark.expecting .sameSymmetricKind).bind_free
  intro _
  exact Item.reads_map item_name _

/-! ## Directed relationships -/

theorem item_roles {α : Type} {short long : Keyword} {pattern : Reader Token α} {phrase : Phrase α}
    (hPattern : Reads pattern phrase noToken) (hApart : short ≠ long) :
    Item (Grammar.roles short long pattern) (Phrase.roles short long phrase) (· = .symbol .leftBracket)
      noToken := by
  apply (item_symbol .leftBracket).bind
  intro _
  have hSide := (item_keyword short).orElse (item_keyword long) (by simp [hApart.symm])
  have hNothing : ∀ t, noToken t ∨ noToken t → noToken t := by simp [noToken]
  apply (hSide.toReads.mono hNothing).bind_free
  intro _
  apply Reads.commit
  have hOthers := ((item_symbol .comma).bind fun _ => hPattern.commit).many fun _ _ h => h
  apply hOthers.bind_begins (· = .symbol .rightBracket)
  · exact fun patterns => Item.reads_map (item_symbol .rightBracket) _
  · exact fun patterns => (item_symbol .rightBracket).begins.bind _
  · simp [noToken]

theorem item_upstreamRoles :
    Item Grammar.upstreamRoles Phrase.upstreamRoles (· = .symbol .leftBracket) noToken :=
  item_roles (item_keywordValue .upstreamPattern _).toReads (by decide)

theorem item_downstreamRoles :
    Item Grammar.downstreamRoles Phrase.downstreamRoles (· = .symbol .leftBracket) noToken :=
  item_roles (item_keywordValue .downstreamPattern _).toReads (by decide)

theorem item_relationshipItem : Item Grammar.relationshipItem Phrase.relationshipItem
    (fun t => t = .keyword .exposedAggregates ∨ t = .keyword .implementationTechnology)
    (· = .symbol .comma) := by
  have hExposed := (item_property .exposedAggregates (Item.toReads item_names)).map
    RelationshipItem.exposedAggregates
  have hTechnology := Item.map item_implementationTechnology RelationshipItem.implementationTechnology
  apply (hExposed.orElse hTechnology (by simp)).mono
  · exact fun _ h => h
  · simp [noToken]

theorem reads_relationshipBody : Reads (Grammar.optionalBlock Grammar.relationshipItem)
    (Phrase.optionalBlock Phrase.relationshipItem) (· = .symbol .leftBrace) := by
  apply Item.optionalBlock item_relationshipItem <;> simp

theorem item_forwardRelationship :
    Item Grammar.forwardRelationship Phrase.forwardRelationship isName (· = .symbol .leftBrace) := by
  apply Item.bind item_name
  intro upstream
  apply (Item.orEmpty item_upstreamRoles).bind_begins (· = .symbol .arrow)
  · intro upstreamPatterns
    apply Item.reads_bind (item_symbol .arrow)
    intro _
    apply Reads.commit
    apply (Item.orEmpty item_downstreamRoles).bind_begins isName
    · intro downstreamPatterns
      apply ((Item.toReads item_name).expecting .downstreamContext).bind_free
      intro downstream
      exact Reads.map reads_relationshipBody _
    · exact fun downstreamPatterns => (Item.begins item_name).bind _
    · simp [isName, noToken]
  · exact fun upstreamPatterns => (item_symbol .arrow).begins.bind _
  · simp [noToken]

theorem item_backwardRelationship :
    Item Grammar.backwardRelationship Phrase.backwardRelationship isName (· = .symbol .leftBrace) := by
  apply Item.bind item_name
  intro downstream
  apply (Item.orEmpty item_downstreamRoles).bind_begins (· = .symbol .leftArrow)
  · intro downstreamPatterns
    apply Item.reads_bind (item_symbol .leftArrow)
    intro _
    apply Reads.commit
    apply (Item.orEmpty item_upstreamRoles).bind_begins isName
    · intro upstreamPatterns
      apply ((Item.toReads item_name).expecting .upstreamContext).bind_free
      intro upstream
      exact Reads.map reads_relationshipBody _
    · exact fun upstreamPatterns => (Item.begins item_name).bind _
    · simp [isName, noToken]
  · exact fun downstreamPatterns => (item_symbol .leftArrow).begins.bind _
  · simp [noToken]

/-! ## Telling the forms apart -/

/-- What stands between the first name of a directed relationship and its arrow: a bracket that opens with
one of the two keywords, or nothing. -/
inductive RolesAhead (short long : Keyword) (mark : Symbol) : List Token → Prop
  | arrow (rest : List Token) : RolesAhead short long mark (.symbol mark :: rest)
  | bracket (k : Keyword) (rest : List Token) (hSide : k = short ∨ k = long) :
      RolesAhead short long mark (.symbol .leftBracket :: .keyword k :: rest)

theorem RolesAhead.append {short long : Keyword} {mark : Symbol} {tokens : List Token}
    (h : RolesAhead short long mark tokens) (rest : List Token) :
    RolesAhead short long mark (tokens ++ rest) := by
  cases h with
  | arrow others => exact .arrow (others ++ rest)
  | bracket k others hSide => exact .bracket k (others ++ rest) hSide

theorem rolesAhead_of_roles {α : Type} {short long : Keyword} {pattern : Phrase α} {mark : Symbol}
    {tokens : List Token} {patterns : List α} (h : Phrase.roles short long pattern tokens patterns) :
    RolesAhead short long mark tokens := by
  obtain ⟨_, _, _, rfl, hBracket, side, rest, _, rfl, hSide, -⟩ := h
  rw [Phrase.symbol_iff.mp hBracket]
  rcases hSide with hSide | hSide
  · rw [Phrase.keyword_iff.mp hSide]
    exact .bracket short rest (Or.inl rfl)
  · rw [Phrase.keyword_iff.mp hSide]
    exact .bracket long rest (Or.inr rfl)

theorem rolesAhead_of_phrase {α β : Type} {short long : Keyword} {pattern : Phrase α} {mark : Symbol}
    {next : String → List α → Unit → Phrase β} {used : List Token} {value : β}
    (h : (Phrase.name >>= fun first => Phrase.orEmpty (Phrase.roles short long pattern) >>= fun patterns =>
      Phrase.symbol mark >>= next first patterns) used value) :
    ∃ text tail, used = .name text :: tail ∧ RolesAhead short long mark tail := by
  obtain ⟨_, _, text, rfl, hName, roles, back, patterns, rfl, hRoles, _, rest, _, rfl, hMark, -⟩ := h
  rw [Phrase.name_iff.mp hName, Phrase.symbol_iff.mp hMark]
  refine ⟨text, _, rfl, ?_⟩
  obtain ⟨values?, hOptional, -⟩ := Phrase.map_iff.mp hRoles
  cases hOptional with
  | none => exact .arrow rest
  | some hSome => exact (rolesAhead_of_roles hSome).append _

theorem name_bind_eq {α : Type} (next : String → Reader Token α) (text : String) (rest : List Token) :
    (Grammar.name >>= next) (.name text :: rest) = next text rest := rfl

theorem wordedRelationship_declines (text : String) {rest : List Token}
    (h : Clear (hasValue SymmetricKind.ofKeyword?) rest) :
    ∃ mismatch, Grammar.wordedRelationship (.name text :: rest) = .declined mismatch := by
  obtain ⟨mismatch, hDeclined⟩ := (item_keywordValue .symmetricKind _).declines rest h
  refine ⟨mismatch, ?_⟩
  rw [Grammar.wordedRelationship, name_bind_eq]
  exact Reader.bind_eq_of_declined hDeclined

theorem symmetricMark_declines {short long : Keyword} {mark : Symbol} {rest : List Token}
    (h : RolesAhead short long mark rest) (hMark : mark ≠ .leftBracket)
    (hShort : SymmetricKind.ofMark? short = none) (hLong : SymmetricKind.ofMark? long = none) :
    ∃ mismatch, Grammar.symmetricMark rest = .declined mismatch := by
  cases h with
  | arrow others => exact Item.declines item_symmetricMark _ (clear_cons.mpr (by simpa using hMark))
  | bracket k others hSide =>
    have hNone : SymmetricKind.ofMark? k = none := by
      rcases hSide with rfl | rfl
      · exact hShort
      · exact hLong
    obtain ⟨mismatch, hDeclined⟩ := (item_keywordValue .symmetricMark SymmetricKind.ofMark?).declines
      (.keyword k :: others) (clear_cons.mpr (by simp [hasValue, hNone]))
    have hBracket : Grammar.symbol .leftBracket (.symbol .leftBracket :: .keyword k :: others)
        = .accepted () (.keyword k :: others) := rfl
    exact ⟨mismatch, (Reader.bind_eq_of_accepted hBracket).trans (Reader.bind_eq_of_declined hDeclined)⟩

theorem markedRelationship_declines (text : String) {rest : List Token} {mismatch : Mismatch Token}
    (h : Grammar.symmetricMark rest = .declined mismatch) :
    Grammar.markedRelationship (.name text :: rest) = .declined mismatch := by
  rw [Grammar.markedRelationship, name_bind_eq]
  exact Reader.bind_eq_of_declined h

/-- The roles of the other side are no roles of this one, and the reader has not committed to them. -/
theorem upstreamRoles_declines {rest : List Token} (h : RolesAhead .d .downstream .leftArrow rest) :
    ∃ mismatch, Grammar.upstreamRoles rest = .declined mismatch := by
  cases h with
  | arrow others => exact Item.declines item_upstreamRoles _ (clear_cons.mpr (by simp))
  | bracket k others hSide =>
    rcases hSide with rfl | rfl
    · exact ⟨_, rfl⟩
    · exact ⟨_, rfl⟩

theorem forwardRelationship_declines (text : String) {rest : List Token}
    (h : RolesAhead .d .downstream .leftArrow rest) :
    ∃ mismatch, Grammar.forwardRelationship (.name text :: rest) = .declined mismatch := by
  obtain ⟨mismatch, hDeclined⟩ := upstreamRoles_declines h
  have hNone : Reader.orEmpty Grammar.upstreamRoles rest = .accepted [] rest := by
    have hOptional : Reader.optional Grammar.upstreamRoles rest = .accepted none rest := by
      rw [Reader.optional, hDeclined]
    exact Reader.bind_eq_of_accepted hOptional
  have hArrow : Clear (· = .symbol .arrow) rest := by
    cases h <;> simp [clear_cons]
  obtain ⟨mismatch, hDeclined⟩ := (item_symbol .arrow).declines rest hArrow
  refine ⟨mismatch, ?_⟩
  rw [Grammar.forwardRelationship, name_bind_eq]
  exact (Reader.bind_eq_of_accepted hNone).trans (Reader.bind_eq_of_declined hDeclined)

theorem clear_symmetricKind_of_rolesAhead {short long : Keyword} {mark : Symbol} {rest : List Token}
    (h : RolesAhead short long mark rest) : Clear (hasValue SymmetricKind.ofKeyword?) rest := by
  cases h <;> exact clear_cons.mpr (by simp [hasValue])

theorem item_directedRelationship :
    Item (Grammar.forwardRelationship <|> Grammar.backwardRelationship)
      (Phrase.forwardRelationship <|> Phrase.backwardRelationship) isName (· = .symbol .leftBrace) := by
  apply Item.orElse_of_declines item_forwardRelationship item_backwardRelationship fun _ => id
  intro used value rest hPhrase
  obtain ⟨text, tail, rfl, hRoles⟩ := rolesAhead_of_phrase hPhrase
  exact forwardRelationship_declines text (hRoles.append rest)

theorem item_unwordedRelationship :
    Item (Grammar.markedRelationship <|> Grammar.forwardRelationship <|> Grammar.backwardRelationship)
      (Phrase.markedRelationship <|> Phrase.forwardRelationship <|> Phrase.backwardRelationship)
      isName (· = .symbol .leftBrace) := by
  apply Item.orElse_of_declines item_markedRelationship item_directedRelationship fun _ => False.elim
  rintro used value rest (hPhrase | hPhrase)
  · obtain ⟨text, tail, rfl, hRoles⟩ := rolesAhead_of_phrase hPhrase
    obtain ⟨mismatch, hDeclined⟩ := symmetricMark_declines (hRoles.append rest) (by decide) rfl rfl
    exact ⟨mismatch, markedRelationship_declines text hDeclined⟩
  · obtain ⟨text, tail, rfl, hRoles⟩ := rolesAhead_of_phrase hPhrase
    obtain ⟨mismatch, hDeclined⟩ := symmetricMark_declines (hRoles.append rest) (by decide) rfl rfl
    exact ⟨mismatch, markedRelationship_declines text hDeclined⟩

theorem unworded_ahead {used : List Token} {value : RelationshipDecl}
    (h : (Phrase.markedRelationship <|> Phrase.forwardRelationship <|> Phrase.backwardRelationship) used value) :
    ∃ text tail, used = .name text :: tail ∧ ∀ rest, Clear (hasValue SymmetricKind.ofKeyword?) (tail ++ rest) := by
  rcases h with h | h | h
  · obtain ⟨_, back, text, rfl, hName, hBack⟩ := h
    rw [Phrase.name_iff.mp hName]
    obtain ⟨t, others, rfl, rfl⟩ := ((Item.begins item_symmetricMark).bind _) back value hBack
    exact ⟨text, _, rfl, fun rest => clear_cons.mpr (by simp [hasValue])⟩
  · obtain ⟨text, tail, rfl, hRoles⟩ := rolesAhead_of_phrase h
    exact ⟨text, tail, rfl, fun rest => clear_symmetricKind_of_rolesAhead (hRoles.append rest)⟩
  · obtain ⟨text, tail, rfl, hRoles⟩ := rolesAhead_of_phrase h
    exact ⟨text, tail, rfl, fun rest => clear_symmetricKind_of_rolesAhead (hRoles.append rest)⟩

theorem item_relationship :
    Item Grammar.relationship Phrase.relationship isName (· = .symbol .leftBrace) := by
  apply Item.expecting
  apply Item.orElse_of_declines item_wordedRelationship item_unwordedRelationship fun _ => False.elim
  intro used value rest hPhrase
  obtain ⟨text, tail, rfl, hClear⟩ := unworded_ahead hPhrase
  exact wordedRelationship_declines text (hClear rest)

/-! ## Maps and declarations -/

theorem item_contained :
    Item Grammar.contained Phrase.contained (· = .keyword .contains) (· = .symbol .comma) := by
  apply (item_keyword .contains).bind
  exact fun _ => (Item.toReads item_names).commit

def startsMapItem (t : Token) : Prop :=
  t = .keyword .type ∨ t = .keyword .state ∨ t = .keyword .contains ∨ isName t

theorem item_mapItem : Item Grammar.mapItem Phrase.mapItem startsMapItem prolongsItem := by
  have hRelationship := Item.map item_relationship MapItem.relationship
  have hContains := (Item.map item_contained MapItem.contains).orElse hRelationship (by simp [isName])
  have hState := ((item_property .state (item_keywordValue .mapState MapState.ofKeyword?).toReads).map
    MapItem.state).orElse hContains (by simp [isName])
  have hAll := ((item_property .type (Item.toReads item_word)).map MapItem.type).orElse hState (by simp [isName])
  apply hAll.mono
  · exact fun _ h => h
  · simp +contextual [prolongsItem, noToken]

theorem item_mapDecl : Item Grammar.mapDecl Phrase.mapDecl (· = .keyword .contextMap) noToken := by
  apply (item_keyword .contextMap).bind
  intro _
  apply Reads.commit
  have hBlock : Item (Grammar.block Grammar.mapItem) (Phrase.block Phrase.mapItem)
      (· = .symbol .leftBrace) noToken := by
    apply Item.block item_mapItem <;> simp [startsMapItem, prolongsItem, isName]
  apply (Item.optional item_name).bind_begins (· = .symbol .leftBrace)
  · exact fun name => hBlock.toReads.map _
  · exact fun name => hBlock.begins.bind _
  · simp [isName, noToken]

def startsDeclaration (t : Token) : Prop :=
  t = .keyword .contextMap ∨ t = .keyword .boundedContext

theorem item_declaration :
    Item Grammar.declaration Phrase.declaration startsDeclaration noToken := by
  have hContext := ((Item.expecting item_contextDecl .boundedContext).map Declaration.boundedContext).orElse
    (Item.decline .declaration noToken noToken) (fun _ h => h.elim)
  have hAll := ((Item.expecting item_mapDecl .contextMap).map Declaration.contextMap).orElse hContext
    (by simp [noToken])
  rw [Phrase.or_never] at hAll
  apply hAll.mono
  · simp [startsDeclaration, noToken]
  · simp [noToken]

end DomainAtlas
