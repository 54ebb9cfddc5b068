import DomainAtlas.Grammar.Members
import DomainAtlas.Proofs.Grammar.Productions
import DomainAtlas.Proofs.Grammar.Reads

/-! # Readers of words, types and members

Each reader of `Grammar.Words` and `Grammar.Members` reads the production of its name.
-/
set_option autoImplicit false

namespace DomainAtlas

open Grammar

theorem item_symbol (s : Symbol) :
    Item (Grammar.symbol s) (Phrase.symbol s) (· = .symbol s) noToken := by
  apply Item.token
  intro t
  split <;> simp_all

theorem item_keyword (k : Keyword) :
    Item (Grammar.keyword k) (Phrase.keyword k) (· = .keyword k) noToken := by
  apply Item.token
  intro t
  split <;> simp_all

def isName (t : Token) : Prop :=
  ∃ text, t = .name text

theorem item_name : Item Grammar.name Phrase.name isName noToken := by
  apply Item.token
  intro t
  cases t <;> simp [isName]

/-- The token is a keyword that stands for a value. -/
def hasValue {α : Type} (value? : Keyword → Option α) (t : Token) : Prop :=
  ∃ k, t = .keyword k ∧ (value? k).isSome

theorem item_keywordValue {α : Type} (expected : Expected) (value? : Keyword → Option α) :
    Item (Grammar.keywordValue expected value?) (Phrase.keywordValue value?) (hasValue value?) noToken := by
  apply Item.token
  intro t
  cases t <;> simp [hasValue]

def namesAttribute (t : Token) : Prop :=
  isName t ∨ ∃ k : Keyword, t = .keyword k ∧ k.isAttributeName

theorem item_attributeName :
    Item Grammar.attributeName Phrase.attributeName namesAttribute noToken := by
  apply Item.token
  intro t
  cases t <;> simp [namesAttribute, isName]

def isWordToken (t : Token) : Prop :=
  isName t ∨ ∃ k : Keyword, t = .keyword k

theorem item_word : Item Grammar.word Phrase.word isWordToken noToken := by
  apply Item.token
  intro t
  cases t <;> simp [isWordToken, isName]

def isString (t : Token) : Prop :=
  ∃ value, t = .string value

theorem item_string : Item Grammar.string Phrase.string isString noToken := by
  apply Item.token
  intro t
  cases t <;> simp [isString]

theorem item_names : Item Grammar.names Phrase.names isName (· = .symbol .comma) :=
  ((item_symbol .comma).separated item_name fun _ _ h => h).mono (fun _ h => h) (by simp [noToken])

theorem item_strings : Item Grammar.strings Phrase.strings isString (· = .symbol .comma) :=
  ((item_symbol .comma).separated item_string fun _ _ h => h).mono (fun _ h => h) (by simp [noToken])

theorem Item.block {α : Type} {reader : Reader Token α} {phrase : Phrase α} {first last : Token → Prop}
    (h : Item reader phrase first last) (hApart : ∀ t, first t → ¬ last t)
    (hFirst : ¬ first (.symbol .rightBrace)) (hLast : ¬ last (.symbol .rightBrace)) :
    Item (Grammar.block reader) (Phrase.block phrase) (· = .symbol .leftBrace) noToken := by
  apply (item_symbol .leftBrace).bind
  intro _
  apply (h.many hApart).bind_begins (· = .symbol .rightBrace)
  · intro items
    exact Item.reads_map (item_symbol .rightBrace) _
  · intro items
    exact (item_symbol .rightBrace).begins.bind _
  · rintro t rfl
    exact not_or.mpr ⟨hFirst, hLast⟩

theorem Item.optionalBlock {α : Type} {reader : Reader Token α} {phrase : Phrase α} {first last : Token → Prop}
    (h : Item reader phrase first last) (hApart : ∀ t, first t → ¬ last t)
    (hFirst : ¬ first (.symbol .rightBrace)) (hLast : ¬ last (.symbol .rightBrace)) :
    Reads (Grammar.optionalBlock reader) (Phrase.optionalBlock phrase) (· = .symbol .leftBrace) :=
  (h.block hApart hFirst hLast).orEmpty.mono (by simp [noToken])

theorem item_property {α : Type} (k : Keyword) {reader : Reader Token α} {phrase : Phrase α}
    {last : Token → Prop} (h : Reads reader phrase last) :
    Item (Grammar.property k reader) (Phrase.property k phrase) (· = .keyword k) last := by
  apply (item_keyword k).bind
  intro _
  apply Reads.commit
  exact Item.reads_bind (item_symbol .equals) fun _ => h

/-! ## Types -/

theorem reads_collectionElement : Reads collectionElement Phrase.name noToken where
  sound := by
    intro tokens value rest hAccepted
    rw [collectionElement, skipTrivia_tokens] at hAccepted
    split at hAccepted
    · cases hAccepted
    · exact (Item.toReads item_name).sound hAccepted
  complete := by
    intro used value rest hPhrase hClear
    obtain ⟨t, others, hUsed, text, rfl⟩ := Item.begins item_name used value hPhrase
    have hKind : Clear (hasValue CollectionKind.ofKeyword?) (used ++ rest) := by
      rw [hUsed]
      exact clear_cons.mpr (by simp [hasValue])
    obtain ⟨mismatch, hDeclined⟩ := (item_keywordValue .collectionKind _).declines _ hKind
    rw [collectionElement, skipTrivia_tokens, collectionKind, hDeclined]
    exact (Item.toReads item_name).complete hPhrase hClear

theorem item_collectionType :
    Item Grammar.collectionType Phrase.collectionType (hasValue CollectionKind.ofKeyword?) noToken := by
  apply (item_keywordValue .collectionKind _).bind
  intro kind
  apply Reads.commit
  apply Item.reads_bind (item_symbol .lessThan)
  intro _
  apply Reads.bind_free reads_collectionElement
  intro element
  exact Item.reads_map (item_symbol .greaterThan) _

theorem item_referenceType :
    Item Grammar.referenceType Phrase.referenceType (· = .symbol .dash) noToken := by
  apply (item_symbol .dash).bind
  intro _
  exact (Item.reads_map item_name _).commit

theorem item_namedType : Item Grammar.namedType Phrase.namedType isName noToken :=
  Item.map item_name _

/-- A type starts with the keyword of a collection, a dash or a name. -/
def startsType (t : Token) : Prop :=
  t = .keyword .list ∨ t = .keyword .set ∨ t = .symbol .dash ∨ isName t

theorem hasValue_collectionKind {t : Token} :
    hasValue CollectionKind.ofKeyword? t ↔ t = .keyword .list ∨ t = .keyword .set := by
  constructor
  · rintro ⟨k, rfl, hValue⟩
    cases k <;> simp_all [CollectionKind.ofKeyword?]
  · rintro (rfl | rfl) <;> simp [hasValue, CollectionKind.ofKeyword?]

theorem item_typeRef : Item Grammar.typeRef Phrase.typeRef startsType noToken := by
  have hNamed := Item.orElse item_referenceType item_namedType (by simp [isName])
  have hAll := Item.orElse item_collectionType hNamed (by simp [hasValue, isName])
  apply (hAll.expecting .type).mono
  · intro t ht
    rw [hasValue_collectionKind, or_assoc] at ht
    exact ht
  · simp [noToken]

/-! ## Attributes and operations -/

/-- What would prolong an attribute. -/
def prolongsAttribute (t : Token) : Prop :=
  t = .keyword .key ∨ t = .keyword .nullable ∨ t = .symbol .semicolon

/-- The end of an attribute: a semicolon or nothing. -/
theorem reads_attributeEnd {α : Type} (value : α) :
    Reads (do let _ ← Reader.optional (Grammar.symbol .semicolon); return value)
      (do let _ ← Phrase.optional (Phrase.symbol .semicolon); return value) (· = .symbol .semicolon) :=
  ((item_symbol .semicolon).optional.map fun _ => value).mono (by simp [noToken])

theorem mayBegin_attributeEnd {α : Type} (value : α) :
    (do let _ ← Phrase.optional (Phrase.symbol .semicolon); return value : Phrase α).MayBegin
      (· = .symbol .semicolon) :=
  (item_symbol .semicolon).begins.mayBegin_optional.map fun _ => value

/-- A flag in front of what may prolong an attribute further. -/
theorem Item.flag {α : Type} {k : Keyword} {next : Bool → Reader Token α} {others : Bool → Phrase α}
    {last : Token → Prop} (first : Token → Prop) (hNext : ∀ value, Reads (next value) (others value) last)
    (hBegins : ∀ value, (others value).MayBegin first) (hApart : ¬ first (.keyword k)) :
    Reads (Reader.present (Grammar.keyword k) >>= next) (Phrase.present (Phrase.keyword k) >>= others)
      fun t => t = .keyword k ∨ last t := by
  apply (item_keyword k).present.bind_mayBegin (fun value => (hNext value).mono fun _ => Or.inr) hBegins
  · rintro t hFirst (rfl | hNone)
    · exact hApart hFirst
    · exact hNone
  · rintro t (rfl | hNone)
    · exact Or.inl rfl
    · exact hNone.elim

theorem item_attributeDecl :
    Item Grammar.attributeDecl Phrase.attributeDecl startsType prolongsAttribute := by
  apply Item.bind item_typeRef
  intro type
  apply Reads.commit
  apply Item.reads_bind item_attributeName
  intro name
  apply Item.flag fun t => t = .keyword .nullable ∨ t = .symbol .semicolon
  · intro key
    apply Item.flag (· = .symbol .semicolon)
    · exact fun nullable => reads_attributeEnd _
    · exact fun nullable => mayBegin_attributeEnd _
    · simp
  · intro key
    have hNullable := (item_keyword .nullable).begins.mayBegin_optional.map Option.isSome
    apply (hNullable.mono fun _ => Or.inl).bind
    exact fun nullable => (mayBegin_attributeEnd _).mono fun _ => Or.inr
  · simp

theorem item_parameterDecl : Item Grammar.parameterDecl Phrase.parameterDecl startsType noToken := by
  apply Item.bind item_typeRef
  intro type
  exact Item.reads_map item_attributeName _

/-- The name of an operation, with or without the type that it returns. -/
def Phrase.operationName : Phrase (Option TypeRef × String) := do
  let returnType ← Phrase.optional Phrase.typeRef
  let name ← Phrase.attributeName
  return (returnType, name)

theorem reads_typedName_some : Reads Grammar.typedName
    (do let type ← Phrase.typeRef; let name ← Phrase.attributeName; return (some type, name)) noToken := by
  apply Item.reads_bind item_typeRef
  intro type
  exact Item.reads_map item_attributeName _

theorem not_startsType_of_isAttributeName {k : Keyword} (h : k.isAttributeName = true) :
    ¬ startsType (.keyword k) := by
  rintro (hList | hSet | hDash | ⟨text, hName⟩)
  · cases hList
    exact absurd h (by decide)
  · cases hSet
    exact absurd h (by decide)
  · cases hDash
  · cases hName

theorem typedName_declines {t : Token} {rest : List Token} (ht : namesAttribute t)
    (hClear : Clear namesAttribute rest) : ∃ mismatch, Grammar.typedName (t :: rest) = .declined mismatch := by
  rcases ht with ⟨text, rfl⟩ | ⟨k, rfl, hLower⟩
  · -- The name is read as a type, and nothing that could be named follows.
    have hNamed : Phrase.typeRef [.name text] (.named text) :=
      Or.inr (Or.inr ⟨[.name text], [], text, rfl, ⟨_, rfl, rfl⟩, rfl, rfl⟩)
    have hType := (Item.toReads item_typeRef).complete hNamed (clear_noToken rest)
    obtain ⟨mismatch, hDeclined⟩ := Item.declines item_attributeName rest hClear
    refine ⟨mismatch, ?_⟩
    rw [Grammar.typedName]
    exact (Reader.bind_eq_of_accepted hType).trans (Reader.bind_eq_of_declined hDeclined)
  · exact ((Item.declines item_typeRef).bind _) _ (clear_cons.mpr (not_startsType_of_isAttributeName hLower))

theorem reads_typedName :
    Reads (Grammar.typedName <|> Grammar.bareName) Phrase.operationName namesAttribute where
  sound := by
    intro tokens value rest hAccepted
    rcases Reader.orElse_eq_accepted hAccepted with hTyped | hBare
    · obtain ⟨used, hUsed, front, back, type, rfl, hType, hName⟩ := Reads.sound reads_typedName_some hTyped
      exact ⟨_, hUsed, front, back, some type, rfl, .some hType, hName⟩
    · obtain ⟨used, hUsed, hName⟩ := (Item.reads_map item_attributeName _).sound hBare
      exact ⟨used, hUsed, [], used, none, rfl, .none, hName⟩
  complete := by
    rintro used value rest ⟨front, back, type?, rfl, hType, hName⟩ hClear
    cases hType with
    | none =>
      obtain ⟨t, others, rfl, ht⟩ := ((Item.begins item_attributeName).bind _) back value hName
      obtain ⟨_, _, _, hOthers, ⟨u, rfl, -⟩, rfl, -⟩ := id hName
      obtain ⟨rfl, rfl⟩ := List.cons.inj hOthers
      obtain ⟨mismatch, hDeclined⟩ := typedName_declines ht hClear
      rw [List.nil_append]
      exact (Reader.orElse_eq_of_declined hDeclined).trans
        ((Item.reads_map item_attributeName _).complete hName (clear_noToken rest))
    | some hType =>
      apply Reader.orElse_eq_of_accepted
      exact Reads.complete reads_typedName_some ⟨front, back, _, rfl, hType, hName⟩ (clear_noToken rest)

theorem item_operationDecl :
    Item Grammar.operationDecl Phrase.operationDecl (· = .keyword .define) (· = .symbol .semicolon) := by
  apply (item_keyword .define).bind
  intro _
  apply Reads.commit
  have hPhrase : ∀ next : Option TypeRef → String → Phrase OperationDecl,
      (Phrase.optional Phrase.typeRef >>= fun type => Phrase.attributeName >>= fun name => next type name)
        = Phrase.operationName >>= fun both => next both.1 both.2 := by
    intro next
    simp only [Phrase.operationName, Phrase.bind_assoc, Phrase.pure_bind]
  rw [hPhrase]
  apply Reads.bind_begins (· = .symbol .leftParen) reads_typedName
  · rintro ⟨returnType, name⟩
    apply Item.reads_bind (item_symbol .leftParen)
    intro _
    have hParameters := (item_symbol .comma).separated item_parameterDecl fun _ _ h => h
    apply hParameters.orEmpty.bind_begins (· = .symbol .rightParen)
    · intro parameters
      apply Item.reads_bind (item_symbol .rightParen)
      exact fun _ => reads_attributeEnd _
    · exact fun parameters => (item_symbol .rightParen).begins.bind _
    · simp [startsType, isName, noToken]
  · exact fun both => (item_symbol .leftParen).begins.bind _
  · simp [namesAttribute, isName]

/-! ## Members -/

theorem item_rootMark : Item Grammar.rootMark Phrase.rootMark (· = .keyword .aggregateRoot) noToken :=
  (item_keyword .aggregateRoot).map _

def startsEntityItem (t : Token) : Prop :=
  t = .keyword .aggregateRoot ∨ t = .keyword .define ∨ startsType t

theorem item_entityItem :
    Item Grammar.entityItem Phrase.entityItem startsEntityItem prolongsAttribute := by
  have hMembers := (Item.map item_operationDecl EntityItem.operation).orElse
    (Item.map item_attributeDecl EntityItem.attribute) (by simp [startsType, isName])
  apply (Item.orElse item_rootMark hMembers (by simp [startsType, isName])).mono
  · exact fun _ h => h
  · rintro t (h | rfl | h)
    · exact h.elim
    · exact Or.inr (Or.inr rfl)
    · exact h

theorem reads_attributes : Reads (Grammar.optionalBlock Grammar.attributeDecl)
    (Phrase.optionalBlock Phrase.attributeDecl) (· = .symbol .leftBrace) := by
  apply Item.optionalBlock item_attributeDecl <;> simp [startsType, prolongsAttribute, isName]

theorem reads_operations : Reads (Grammar.optionalBlock Grammar.operationDecl)
    (Phrase.optionalBlock Phrase.operationDecl) (· = .symbol .leftBrace) := by
  apply Item.optionalBlock item_operationDecl <;> simp

theorem reads_entityItems : Reads (Grammar.optionalBlock Grammar.entityItem)
    (Phrase.optionalBlock Phrase.entityItem) (· = .symbol .leftBrace) := by
  apply Item.optionalBlock item_entityItem <;> simp [startsEntityItem, startsType, prolongsAttribute, isName]

theorem item_entityDecl :
    Item Grammar.entityDecl Phrase.entityDecl (· = .keyword .entity) (· = .symbol .leftBrace) := by
  apply (item_keyword .entity).bind
  intro _
  apply Reads.commit
  apply Item.reads_bind item_name
  intro name
  exact Reads.map reads_entityItems _

theorem item_objectDecl (kind : Keyword) :
    Item (Grammar.objectDecl kind) (Phrase.objectDecl kind) (· = .keyword kind) (· = .symbol .leftBrace) := by
  apply (item_keyword kind).bind
  intro _
  apply Reads.commit
  apply Item.reads_bind item_name
  intro name
  exact Reads.map reads_attributes _

theorem item_serviceDecl :
    Item Grammar.serviceDecl Phrase.serviceDecl (· = .keyword .service) (· = .symbol .leftBrace) := by
  apply (item_keyword .service).bind
  intro _
  apply Reads.commit
  apply Item.reads_bind item_name
  intro name
  exact Reads.map reads_operations _

end DomainAtlas
