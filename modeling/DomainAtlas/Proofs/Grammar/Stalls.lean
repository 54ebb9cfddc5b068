import DomainAtlas.Proofs.Grammar.Boundaries
import DomainAtlas.Proofs.Grammar.Truncation

/-! # Where readers stall

For each production the beginnings that its reader gives back. There are four places where it has not committed: an
optional body without its end, a list after a comma, a type before the name that it belongs to, and a relationship
before its arrow.
-/
set_option autoImplicit false

namespace DomainAtlas

open Grammar Grammar.Reader Grammar.Outcome

variable {α β : Type}

/-! ## Words and lists -/

theorem truncated_symbol (s : Symbol) :
    TruncatedItem (Grammar.symbol s) (Phrase.symbol s) (· = .symbol s) .never noToken :=
  .token (item_symbol s) noToken

theorem truncated_keyword (k : Keyword) :
    TruncatedItem (Grammar.keyword k) (Phrase.keyword k) (· = .keyword k) .never noToken :=
  .token (item_keyword k) noToken

theorem truncated_keywordValue (expected : Expected) (value? : Keyword → Option α) :
    TruncatedItem (Grammar.keywordValue expected value?) (Phrase.keywordValue value?) (hasValue value?) .never
      noToken :=
  .token (item_keywordValue expected value?) noToken

theorem truncated_name : TruncatedItem Grammar.name Phrase.name isName .never noToken :=
  .token item_name noToken

theorem truncated_attributeName :
    TruncatedItem Grammar.attributeName Phrase.attributeName namesAttribute .never noToken :=
  .token item_attributeName noToken

theorem truncated_word : TruncatedItem Grammar.word Phrase.word isWordToken .never noToken :=
  .token item_word noToken

theorem truncated_string : TruncatedItem Grammar.string Phrase.string isString .never noToken :=
  .token item_string noToken

namespace Phrase

/-- A list that breaks off after a comma or in an element that stalls. -/
def openList (phrase : Phrase α) (stall : Phrase Unit) : Phrase Unit := do
  let _ ← phrase
  let _ ← many do
    symbol .comma
    phrase
  symbol .comma
  pure () <|> stall

/-- A block that breaks off at `stall`. -/
def openBlock (item : Phrase α) (stall : Phrase Unit) : Phrase Unit := do
  symbol .leftBrace
  let _ ← many item
  stall

/-- A keyword, a name, and a body that stalls. -/
def openTitled (k : Keyword) (stall : Phrase Unit) : Phrase Unit := do
  keyword k
  let _ ← name
  stall

@[simp] theorem property_never (k : Keyword) : property k (never : Phrase α) = never := by
  rw [property, bind_never, bind_never]

end Phrase

section

variable {reader : Reader Token α} {phrase : Phrase α} {first last : Token → Prop} {stall : Phrase Unit}

theorem truncated_listTail (h : TruncatedItem reader phrase first stall noToken)
    (hItem : Item reader phrase first noToken) :
    Truncated (many do Grammar.symbol .comma; reader) (Phrase.many do Phrase.symbol .comma; phrase)
      (do let _ ← Phrase.many (do Phrase.symbol .comma; phrase); Phrase.symbol .comma; pure () <|> stall)
      (· = .symbol .comma) := by
  have hElement := (truncated_symbol .comma).lead (Item.toReads (item_symbol .comma)) fun _ => h
  rw [Phrase.never_or] at hElement
  have hElements := hElement.many ((item_symbol .comma).bind fun _ => hItem.toReads) fun _ _ hNone => hNone
  exact hElements.mono fun t ht => ht.resolve_right id

theorem truncated_list (h : TruncatedItem reader phrase first .never noToken)
    (hItem : Item reader phrase first noToken) :
    Truncated (separated Grammar.comma reader) (Phrase.separated (Phrase.symbol .comma) phrase)
      (Phrase.openList phrase .never) (· = .symbol .comma) :=
  h.whole.bind_free hItem.toReads fun _ => (truncated_listTail h hItem).map _

theorem truncated_separated (h : TruncatedItem reader phrase first stall noToken)
    (hItem : Item reader phrase first noToken) :
    TruncatedItem (separated Grammar.comma reader) (Phrase.separated (Phrase.symbol .comma) phrase) first
      (stall <|> Phrase.openList phrase stall) (· = .symbol .comma) :=
  h.bind hItem.toReads (fun _ => (truncated_listTail h hItem).map _) fun _ => (firm_many _).map _

theorem truncated_names :
    Truncated Grammar.names Phrase.names (Phrase.openList Phrase.name .never) (· = .symbol .comma) :=
  truncated_list truncated_name item_name

theorem truncated_strings :
    Truncated Grammar.strings Phrase.strings (Phrase.openList Phrase.string .never) (· = .symbol .comma) :=
  truncated_list truncated_string item_string

theorem truncated_property (k : Keyword) (h : Truncated reader phrase stall last) :
    TruncatedItem (Grammar.property k reader) (Phrase.property k phrase) (· = .keyword k) (Phrase.property k stall)
      last := by
  have hValue := (truncated_symbol .equals).whole.bind_free (Item.toReads (item_symbol .equals)) fun _ => h
  have hProperty := (truncated_keyword k).bind (Item.toReads (item_keyword k)) (fun _ => hValue.commit)
    fun _ => firm_commit _
  rwa [Phrase.never_or] at hProperty

end

/-! ## Blocks -/

section

variable {expected : Expected} {value? : Token → Option α} {first kind last : Token → Prop} {rest : List Token}

/-- A token of another class is in the way. -/
theorem stalled_token (h : TruncatedItem (Reader.token expected value?) (Phrase.token value?) first .never noToken)
    (hRest : ∃ t ∈ rest.head?, kind t) (hApart : ∀ t, kind t → ¬ first t) :
    (Reader.token expected value? rest).Stalled last := by
  obtain ⟨t, ht, hKind⟩ := hRest
  cases rest with
  | nil => cases ht
  | cons u others =>
    obtain rfl := Option.some.inj ht
    have hNone : value? u = none := by
      refine Option.eq_none_iff_forall_ne_some.mpr fun value hValue => hApart u hKind ?_
      obtain ⟨t, others, hToken, hFirst⟩ := h.begins [u] value ⟨u, rfl, hValue⟩
      obtain ⟨rfl, -⟩ := List.cons.inj hToken
      exact hFirst
    simp [Reader.token, hNone, Stalled, Mismatch.Misplaced]

theorem stalled_token_bind {next : α → Reader Token β}
    (h : TruncatedItem (Reader.token expected value?) (Phrase.token value?) first .never noToken)
    (hRest : ∃ t ∈ rest.head?, kind t) (hApart : ∀ t, kind t → ¬ first t) :
    ((Reader.token expected value? >>= next) rest).Stalled last :=
  (stalled_token h hRest hApart).bind_none

end

theorem truncated_close (s : Symbol) (value : α) :
    Truncated (do Grammar.symbol s; return value) (do Phrase.symbol s; return value) .never noToken :=
  (truncated_symbol s).whole.map _

/-- What follows the brace of a block. -/
def Grammar.blockItems (reader : Reader Token α) : Reader Token (List α) := do
  let items ← many reader
  symbol .rightBrace
  return items

theorem block_cons (reader : Reader Token α) (tokens : List Token) :
    Grammar.block reader (.symbol .leftBrace :: tokens) = Grammar.blockItems reader tokens := rfl

section

variable {reader : Reader Token α} {phrase : Phrase α} {first last : Token → Prop} {stall : Phrase Unit}
  (h : TruncatedItem reader phrase first stall last) (hItem : Item reader phrase first last)
  (hApart : ∀ t, first t → ¬ last t)
include h hItem hApart

/-- A block that breaks off within an item. -/
theorem refused_block {inner between : List Token} {values : List α}
    (hItems : Phrase.many phrase (inner ++ between) values) (hMiddle : ∀ values, ¬ Phrase.many phrase inner values)
    (hGoesOn : ¬ (Phrase.many phrase >>= fun _ => stall) inner ()) :
    ∃ mismatch, Grammar.block reader (.symbol .leftBrace :: inner) = .refused mismatch ∧ mismatch.RanOut := by
  have hEnds := (h.many hItem hApart).ends hItems hGoesOn
  rcases accepted_or_refused_of_ended (hItem.many hApart) hEnds (firm_many reader inner) with
    ⟨found, hFound, -⟩ | ⟨mismatch, hRefused, hEnd⟩
  · exact absurd hFound (hMiddle found)
  · refine ⟨mismatch, ?_, hEnd⟩
    rw [block_cons, blockItems]
    simp only [Bind.bind, hRefused]

variable (hFirst : ¬ first (.symbol .rightBrace)) (hLast : ¬ last (.symbol .rightBrace))
include hFirst hLast

theorem truncated_block :
    Truncated (Grammar.block reader) (Phrase.block phrase) (Phrase.openBlock phrase stall) noToken := by
  have hItems := (h.many hItem hApart).bind (hItem.many hApart) (truncated_close .rightBrace)
    (fun items back _ hBack => by
      obtain ⟨t, others, rfl, rfl⟩ := ((item_symbol .rightBrace).begins.bind _) back _ hBack
      exact clear_cons.mpr (not_or.mpr ⟨hFirst, hLast⟩))
    (fun _ _ hNever => hNever.elim)
    (fun items rest hRest => stalled_token_bind (truncated_symbol .rightBrace) hRest (by
      rintro _ hKind rfl
      exact hKind.elim hFirst hLast))
  rw [Phrase.bind_never, Phrase.or_never] at hItems
  exact (truncated_symbol .leftBrace).whole.bind_free (Item.toReads (item_symbol .leftBrace)) fun _ => hItems

/-- A block without its end is no block. -/
theorem truncated_blockItem : TruncatedItem (Grammar.block reader) (Phrase.block phrase) (· = .symbol .leftBrace)
    (Phrase.openBlock phrase (pure () <|> stall)) noToken where
  begins := (item_symbol .leftBrace).begins.bind _
  declines := (item_symbol .leftBrace).declines.bind _
  empty := ⟨rfl, _, rfl⟩
  ends := by
    rintro front back result hBlock hSome hGoesOn
    have hWhole := hBlock
    obtain ⟨_, _, _, hTokens, hBrace, items, tail, values, rfl, hItems, hEnd⟩ := hBlock
    obtain ⟨_, hEnd, -⟩ := Phrase.map_iff.mp hEnd
    obtain ⟨t, inner, rfl⟩ := List.exists_cons_of_ne_nil hSome
    rw [Phrase.symbol_iff.mp hBrace, Phrase.symbol_iff.mp hEnd] at hTokens
    obtain ⟨rfl, hInner⟩ : t = .symbol .leftBrace ∧ inner ++ back = items ++ [.symbol .rightBrace] :=
      by simpa using hTokens
    have hMiddle : ∀ values, ¬ Phrase.many phrase inner values := fun values hItems =>
      hGoesOn ⟨[_], inner, (), rfl, Phrase.symbol_iff.mpr rfl, inner, [], values, (List.append_nil inner).symm, hItems,
        .inl ⟨rfl, rfl⟩⟩
    rcases List.append_eq_append_iff.mp hInner with ⟨between, rfl, -⟩ | ⟨between, rfl, hBetween⟩
    · have hInside : ¬ (Phrase.many phrase >>= fun _ => stall) inner () := by
        rintro ⟨whole, last, values, hTokens, hWhole, hStall⟩
        exact hGoesOn ⟨[_], inner, (), rfl, Phrase.symbol_iff.mpr rfl, whole, last, values, hTokens, hWhole, .inr hStall⟩
      obtain ⟨mismatch, hRefused, hEnd⟩ := refused_block h hItem hApart hItems hMiddle hInside
      rw [hRefused]
      exact ⟨hEnd, id⟩
    · cases between with
      | nil => exact absurd (by rwa [List.append_nil]) (hMiddle values)
      | cons u others =>
        obtain ⟨rfl, hNone⟩ := List.cons.inj hBetween
        obtain ⟨rfl, rfl⟩ := List.append_eq_nil_iff.mp hNone.symm
        have hAccepted : Grammar.block reader (.symbol .leftBrace :: (items ++ [.symbol .rightBrace]) ++ []) =
            .accepted result [] :=
          (hItem.block hApart hFirst hLast).complete (by simpa using hWhole) (by simp [Clear])
        rw [List.append_nil] at hAccepted
        rw [hAccepted]
        exact ⟨rfl, id⟩
  stalls := by
    rintro front ⟨_, _, _, rfl, hBrace, items, tail, values, rfl, hItems, hTail⟩
    rw [Phrase.symbol_iff.mp hBrace]
    refine ⟨⟨_, rfl, rfl⟩, ?_⟩
    rcases hTail with ⟨rfl, -⟩ | hStall
    · have hAccepted : many reader (items ++ []) = .accepted values [] :=
        (hItem.many hApart).complete hItems (by simp [Clear])
      left
      rw [List.singleton_append, block_cons, blockItems, bind_eq_of_accepted hAccepted]
      trivial
    · exact .inr ((truncated_block h hItem hApart hFirst hLast).stalls
        ⟨_, _, (), rfl, Phrase.symbol_iff.mpr rfl, items, tail, values, rfl, hItems, hStall⟩)

theorem truncated_optionalBlock : Truncated (Grammar.optionalBlock reader) (Phrase.optionalBlock phrase)
    (Phrase.openBlock phrase (pure () <|> stall)) (· = .symbol .leftBrace) :=
  (truncated_blockItem h hItem hApart hFirst hLast).orEmpty.mono fun _ ht => ht.resolve_right id

end

/-- What follows the name may not be given back. -/
theorem truncated_titled {k : Keyword} {body : String → Reader Token α} {others : String → Phrase α} {stall : Phrase Unit}
    {last : Token → Prop} (h : ∀ name, Truncated (body name) (others name) stall last) :
    TruncatedItem (Grammar.keyword k >>= fun _ => commit (Grammar.name >>= body))
      (Phrase.keyword k >>= fun _ => Phrase.name >>= others) (· = .keyword k) (Phrase.openTitled k stall) last := by
  have hNamed := (TruncatedItem.whole truncated_name).bind_free (Item.toReads item_name) h
  have hTitled := (truncated_keyword k).bind (Item.toReads (item_keyword k)) (fun _ => hNamed.commit)
    fun _ => firm_commit _
  rwa [Phrase.never_or] at hTitled

/-! ## Types and attributes -/

theorem truncated_collectionElement : Truncated Grammar.collectionElement Phrase.name .never noToken where
  empty := ⟨rfl, _, rfl⟩
  ends := by
    rintro front back text hName -
    rw [Phrase.name_iff] at hName
    cases front with
    | nil => exact ⟨rfl, _, rfl⟩
    | cons t others =>
      obtain ⟨rfl, hNone⟩ := List.cons.inj hName
      obtain ⟨rfl, -⟩ := List.append_eq_nil_iff.mp hNone
      rfl
  stalls := False.elim

theorem truncated_collectionType : TruncatedItem Grammar.collectionType Phrase.collectionType
    (hasValue CollectionKind.ofKeyword?) .never noToken := by
  refine (truncated_keywordValue _ _).bind_whole (item_keywordValue _ _).toReads (fun kind => ?_) fun _ => firm_commit _
  refine ((truncated_symbol .lessThan).whole.free_whole (Item.toReads (item_symbol .lessThan)) fun _ => ?_).commit
  refine Truncated.free_whole truncated_collectionElement reads_collectionElement fun element => ?_
  exact (truncated_symbol .greaterThan).whole.map _

theorem truncated_referenceType :
    TruncatedItem Grammar.referenceType Phrase.referenceType (· = .symbol .dash) .never noToken :=
  (truncated_symbol .dash).bind_whole (Item.toReads (item_symbol .dash))
    (fun _ => ((TruncatedItem.whole truncated_name).map _).commit) fun _ => firm_commit _

theorem truncated_typeRef : TruncatedItem Grammar.typeRef Phrase.typeRef startsType .never noToken := by
  have hNamed := TruncatedItem.orElse truncated_referenceType (TruncatedItem.map truncated_name TypeRef.named)
    (by simp [isName])
  have hAll := TruncatedItem.orElse truncated_collectionType hNamed (by simp [hasValue, isName])
  rw [Phrase.never_or, Phrase.never_or] at hAll
  apply (hAll.expecting .type).mono
  · intro t ht
    rw [hasValue_collectionKind, or_assoc] at ht
    exact ht
  · simp [noToken]

theorem Phrase.MayBegin.clear {phrase : Phrase α} {first kind : Token → Prop} (h : phrase.MayBegin first)
    (hApart : ∀ t, first t → ¬ kind t) {tokens : List Token} {value : α} (hPhrase : phrase tokens value) :
    Clear kind tokens :=
  fun t ht => hApart t (h tokens value hPhrase t ht)

theorem Phrase.Begins.clear {phrase : Phrase α} {first kind : Token → Prop} (h : phrase.Begins first)
    (hApart : ∀ t, first t → ¬ kind t) {tokens : List Token} {value : α} (hPhrase : phrase tokens value) :
    Clear kind tokens := by
  obtain ⟨t, others, rfl, hFirst⟩ := h tokens value hPhrase
  exact clear_cons.mpr (hApart t hFirst)

theorem truncated_flag {k : Keyword} {next : Bool → Reader Token α} {others : Bool → Phrase α} {last : Token → Prop}
    (first : Token → Prop) (hNext : ∀ value, Truncated (next value) (others value) .never last)
    (hBegins : ∀ value, (others value).MayBegin first) (hApart : ¬ first (.keyword k)) :
    Truncated (present (Grammar.keyword k) >>= next) (Phrase.present (Phrase.keyword k) >>= others) .never last := by
  refine (truncated_keyword k).present.any.bind_whole (item_keyword k).present hNext fun value back result => ?_
  refine (hBegins value).clear ?_
  rintro t hFirst (rfl | hNone)
  · exact hApart hFirst
  · exact hNone

theorem truncated_attributeEnd (value : α) (last : Token → Prop) :
    Truncated (do let _ ← Reader.optional (Grammar.symbol .semicolon); return value)
      (do let _ ← Phrase.optional (Phrase.symbol .semicolon); return value) .never last :=
  ((truncated_symbol .semicolon).optional.map _).any

theorem truncated_attributeDecl :
    TruncatedItem Grammar.attributeDecl Phrase.attributeDecl startsType .never prolongsAttribute := by
  refine TruncatedItem.bind_whole truncated_typeRef (Item.toReads item_typeRef) (fun type => Truncated.commit ?_)
    fun _ => firm_commit _
  refine (TruncatedItem.whole truncated_attributeName).free_whole (Item.toReads item_attributeName) fun name => ?_
  refine truncated_flag (fun t => t = .keyword .nullable ∨ t = .symbol .semicolon) (fun key => ?_) (fun key => ?_)
    (by simp)
  · exact truncated_flag (· = .symbol .semicolon) (fun nullable => truncated_attributeEnd _ _)
      (fun nullable => mayBegin_attributeEnd _) (by simp)
  · have hNullable := (item_keyword .nullable).begins.mayBegin_optional.map Option.isSome
    exact (hNullable.mono fun _ => .inl).bind fun nullable => (mayBegin_attributeEnd _).mono fun _ => .inr

/-! ## Operations -/

namespace Phrase

/-- A type without the name that it belongs to. -/
def openParameter : Phrase Unit := do
  let _ ← typeRef
  pure ()

/-- The return type of an operation without its name, unless it may be the name itself. -/
def openReturnType : Phrase Unit := do
  let _ ← collectionType <|> referenceType
  pure ()

/-- Parameters that break off at a comma or before a name. -/
def openParameters : Phrase Unit :=
  openParameter <|> openList parameterDecl openParameter

def stalledOperation : Phrase Unit := do
  keyword .define
  openReturnType <|> do
    let _ ← operationName
    symbol .leftParen
    openParameters

end Phrase

theorem truncated_parameterDecl :
    TruncatedItem Grammar.parameterDecl Phrase.parameterDecl startsType Phrase.openParameter noToken := by
  have hParameter := TruncatedItem.lead truncated_typeRef (Item.toReads item_typeRef) fun type =>
    TruncatedItem.map truncated_attributeName fun name => ({ type, name } : ParameterDecl)
  simp only [Phrase.or_never, Phrase.never_or] at hParameter
  exact hParameter

theorem truncated_parameters : Truncated (orEmpty (separated Grammar.comma Grammar.parameterDecl))
    (Phrase.orEmpty (Phrase.separated (Phrase.symbol .comma) Phrase.parameterDecl)) Phrase.openParameters
    (fun t => startsType t ∨ t = .symbol .comma) :=
  (truncated_separated truncated_parameterDecl item_parameterDecl).orEmpty

theorem ended_operationName {t : Token} (ht : namesAttribute t) :
    ((Grammar.typedName <|> Grammar.bareName : Reader Token _) [t]).Ended := by
  obtain ⟨mismatch, hDeclined⟩ := typedName_declines ht (show Clear namesAttribute [] by simp [Clear])
  rw [orElse_eq_of_declined hDeclined]
  rcases ht with ⟨text, rfl⟩ | ⟨k, rfl, hLower⟩
  · rfl
  · simp [Grammar.bareName, Grammar.attributeName, Reader.token, hLower, bind, Ended, pure]

/-- A type may be followed by a name, and a named type may be the name itself. -/
theorem ended_operationName_of_type {front : List Token} {type : TypeRef} (hType : Phrase.typeRef front type)
    (hGoesOn : ¬ Phrase.openReturnType front ()) : ((Grammar.typedName <|> Grammar.bareName : Reader Token _) front).Ended := by
  have hOpen : (Phrase.collectionType <|> Phrase.referenceType) front type → False := fun h =>
    hGoesOn ⟨front, [], type, (List.append_nil front).symm, h, rfl, rfl⟩
  rcases hType with hCollection | hReference | hNamed
  · exact (hOpen (.inl hCollection)).elim
  · exact (hOpen (.inr hReference)).elim
  · obtain ⟨text, hName, -⟩ := Phrase.map_iff.mp hNamed
    rw [Phrase.name_iff.mp hName]
    exact ended_operationName (.inl ⟨text, rfl⟩)

theorem ended_operationName_nil : ((Grammar.typedName <|> Grammar.bareName : Reader Token _) []).Ended :=
  ⟨rfl, _, rfl⟩

theorem ended_operationName_of_typeFront {front back : List Token} {type : TypeRef}
    (hType : Phrase.typeRef (front ++ back) type) (hGoesOn : ¬ Phrase.openReturnType front ()) :
    ((Grammar.typedName <|> Grammar.bareName : Reader Token _) front).Ended := by
  by_cases hSome : front = []
  · rw [hSome]
    exact ended_operationName_nil
  · rcases TruncatedItem.accepted_or_refused truncated_typeRef (Item.toReads item_typeRef) hType hSome id with
      ⟨found, hWhole, -⟩ | ⟨mismatch, hRefused, hEnd⟩
    · exact ended_operationName_of_type hWhole hGoesOn
    · have hTyped : Grammar.typedName front = .refused mismatch := by
        simp only [Grammar.typedName, bind, hRefused]
      rw [not_declined_orElse (by rw [hTyped]; exact id), hTyped]
      exact hEnd

/-- A type that is no name is read as no name. -/
theorem stalled_operationName {front : List Token} {last : Token → Prop} (h : Phrase.openReturnType front ()) :
    ((Grammar.typedName <|> Grammar.bareName : Reader Token _) front).Stalled last := by
  obtain ⟨front, _, type, rfl, hType, rfl, -⟩ := h
  rw [List.append_nil]
  have hWhole : Phrase.typeRef front type := hType.imp id .inl
  have hAccepted : Grammar.typeRef (front ++ []) = .accepted type [] :=
    (Item.toReads item_typeRef).complete hWhole (by simp [Clear])
  rw [List.append_nil] at hAccepted
  have hDeclined : (Grammar.typedName front).Declined := by
    rw [Grammar.typedName, bind_eq_of_accepted hAccepted]
    trivial
  have hOther : ∃ t ∈ front.head?, ¬ namesAttribute t := by
    obtain ⟨t, others, rfl, hKind⟩ := ((TruncatedItem.orElse truncated_collectionType truncated_referenceType
      (by simp [hasValue])).begins) front type hType
    refine ⟨t, rfl, ?_⟩
    rcases hKind with hCollection | rfl
    · rintro (⟨text, rfl⟩ | ⟨k, rfl, hLower⟩)
      · simp [hasValue] at hCollection
      · exact not_startsType_of_isAttributeName hLower (by
          rcases hasValue_collectionKind.mp hCollection with hList | hSet
          · exact .inl hList
          · exact .inr (.inl hSet))
    · simp [namesAttribute, isName]
  rw [declined_orElse hDeclined]
  exact stalled_token_bind truncated_attributeName hOther fun _ => id

theorem truncated_operationName : Truncated (Grammar.typedName <|> Grammar.bareName) Phrase.operationName
    Phrase.openReturnType noToken where
  empty := ended_operationName_nil
  ends := by
    rintro front back value hPhrase hGoesOn
    have hWhole := hPhrase
    obtain ⟨typeTokens, nameTokens, type?, hTokens, hType, hName⟩ := hPhrase
    obtain ⟨t, rfl, ht⟩ : ∃ t, nameTokens = [t] ∧ namesAttribute t := by
      obtain ⟨name, hName, -⟩ := Phrase.map_iff.mp hName
      obtain ⟨t, others, rfl, ht⟩ := Item.begins item_attributeName nameTokens name hName
      obtain ⟨u, hToken, -⟩ := hName
      exact ⟨t, by rw [(List.cons.inj hToken).2], ht⟩
    rcases List.append_eq_append_iff.mp hTokens with ⟨between, rfl, -⟩ | ⟨between, rfl, hBetween⟩
    · generalize hFront : front ++ between = tokens at hType
      cases hType with
      | none =>
        rw [(List.append_eq_nil_iff.mp hFront).1]
        exact ended_operationName_nil
      | some hType => exact ended_operationName_of_typeFront (hFront ▸ hType) hGoesOn
    · cases between with
      | nil =>
        rw [List.append_nil] at hGoesOn ⊢
        cases hType with
        | none => exact ended_operationName_nil
        | some hType => exact ended_operationName_of_type hType hGoesOn
      | cons u others =>
        obtain ⟨rfl, hNone⟩ := List.cons.inj hBetween
        obtain ⟨rfl, rfl⟩ := List.append_eq_nil_iff.mp hNone.symm
        have hAccepted := Reads.complete reads_typedName hWhole (show Clear namesAttribute [] by simp [Clear])
        simp only [List.append_nil] at hAccepted
        rw [hAccepted]
        rfl
  stalls := stalled_operationName

/-- What follows the name of an operation. -/
def Grammar.parameterList (returnType : Option TypeRef) (name : String) : Reader Token OperationDecl := do
  symbol .leftParen
  let parameters ← orEmpty (separated comma parameterDecl)
  symbol .rightParen
  let _ ← optional (symbol .semicolon)
  return { returnType, name, parameters }

def Phrase.parameterList (returnType : Option TypeRef) (name : String) : Phrase OperationDecl := do
  symbol .leftParen
  let parameters ← orEmpty (separated (symbol .comma) parameterDecl)
  symbol .rightParen
  let _ ← optional (symbol .semicolon)
  return { returnType, name, parameters }

theorem truncated_parameterList (returnType : Option TypeRef) (name : String) :
    Truncated (Grammar.parameterList returnType name) (Phrase.parameterList returnType name)
      (do Phrase.symbol .leftParen; Phrase.openParameters) (· = .symbol .semicolon) := by
  refine (truncated_symbol .leftParen).whole.bind_free (Item.toReads (item_symbol .leftParen)) fun _ => ?_
  have hSeparated := (item_symbol .comma).separated item_parameterDecl fun _ _ h => h
  have hEnd (parameters : List ParameterDecl) := (truncated_symbol .rightParen).whole.free_whole
    (Item.toReads (item_symbol .rightParen)) fun _ =>
      truncated_attributeEnd ({ returnType, name, parameters } : OperationDecl) (· = .symbol .semicolon)
  have hParameters := Truncated.bind truncated_parameters hSeparated.orEmpty hEnd
    (fun parameters back result =>
      ((item_symbol .rightParen).begins.bind _).clear (by simp [startsType, isName, noToken]))
    (fun _ _ => False.elim)
    (fun parameters rest hRest => stalled_token_bind (truncated_symbol .rightParen) hRest (by
      rintro _ hKind rfl
      simp [startsType, isName] at hKind))
  rwa [Phrase.bind_never, Phrase.or_never] at hParameters

theorem Phrase.operationDecl_eq :
    operationDecl = keyword .define >>= fun _ => operationName >>= fun both => parameterList both.1 both.2 := by
  simp only [operationDecl, operationName, parameterList, bind_assoc, pure_bind]

theorem truncated_operationDecl : TruncatedItem Grammar.operationDecl Phrase.operationDecl (· = .keyword .define)
    Phrase.stalledOperation (· = .symbol .semicolon) := by
  have hBody := Truncated.bind truncated_operationName reads_typedName
    (fun both => truncated_parameterList both.1 both.2)
    (fun both back result => ((item_symbol .leftParen).begins.bind _).clear (by simp [namesAttribute, isName]))
    (fun both back => ((item_symbol .leftParen).begins.bind _).clear (by simp [namesAttribute, isName]))
    (fun _ _ hNone => (not_head_noToken hNone).elim)
  have hOperation := (truncated_keyword .define).bind (Item.toReads (item_keyword .define)) (fun _ => hBody.commit)
    fun _ => firm_commit _
  rw [Phrase.never_or] at hOperation
  rw [Phrase.operationDecl_eq]
  exact hOperation

/-! ## Members -/

namespace Phrase

/-- A body that breaks off between its items or in one that stalls. -/
def openBody (item : Phrase α) (stall : Phrase Unit) : Phrase Unit :=
  openBlock item (pure () <|> stall)

def stalledEntity : Phrase Unit :=
  openTitled .entity (openBody entityItem stalledOperation)

def stalledObject (kind : Keyword) : Phrase Unit :=
  openTitled kind (openBody attributeDecl never)

def stalledService : Phrase Unit :=
  openTitled .service (openBody operationDecl stalledOperation)

end Phrase

theorem truncated_entityItem : TruncatedItem Grammar.entityItem Phrase.entityItem startsEntityItem
    Phrase.stalledOperation prolongsAttribute := by
  have hMembers := (TruncatedItem.map truncated_operationDecl EntityItem.operation).orElse
    (TruncatedItem.map truncated_attributeDecl EntityItem.attribute) (by simp [startsType, isName])
  have hRoot : TruncatedItem Grammar.rootMark Phrase.rootMark (· = .keyword .aggregateRoot) .never noToken :=
    (truncated_keyword .aggregateRoot).map _
  have hAll := hRoot.orElse hMembers (by simp [startsType, isName])
  rw [Phrase.or_never, Phrase.never_or] at hAll
  apply hAll.mono
  · exact fun _ h => h
  · rintro t (h | rfl | h)
    · exact h.elim
    · exact Or.inr (Or.inr rfl)
    · exact h

theorem truncated_entityDecl : TruncatedItem Grammar.entityDecl Phrase.entityDecl (· = .keyword .entity)
    Phrase.stalledEntity (· = .symbol .leftBrace) := by
  refine truncated_titled fun name => Truncated.map ?_ _
  apply truncated_optionalBlock truncated_entityItem item_entityItem <;>
    simp [startsEntityItem, startsType, prolongsAttribute, isName]

theorem truncated_objectDecl (kind : Keyword) : TruncatedItem (Grammar.objectDecl kind) (Phrase.objectDecl kind)
    (· = .keyword kind) (Phrase.stalledObject kind) (· = .symbol .leftBrace) := by
  refine truncated_titled fun name => Truncated.map ?_ _
  apply truncated_optionalBlock truncated_attributeDecl item_attributeDecl <;>
    simp [startsType, prolongsAttribute, isName]

theorem truncated_serviceDecl : TruncatedItem Grammar.serviceDecl Phrase.serviceDecl (· = .keyword .service)
    Phrase.stalledService (· = .symbol .leftBrace) := by
  refine truncated_titled fun name => Truncated.map ?_ _
  apply truncated_optionalBlock truncated_operationDecl item_operationDecl <;> simp

/-! ## Contexts -/

namespace Phrase

/-- Responsibilities that break off after a comma. -/
def stalledResponsibilities : Phrase Unit :=
  property .responsibilities (openList string never)

def stalledAggregateItem : Phrase Unit :=
  stalledResponsibilities <|> stalledEntity <|> stalledObject .valueObject <|> stalledObject .domainEvent
    <|> stalledObject .command <|> stalledService

def stalledAggregate : Phrase Unit :=
  openTitled .aggregate (openBlock aggregateItem stalledAggregateItem)

def stalledModule : Phrase Unit :=
  openTitled .module (openBlock aggregateDecl stalledAggregate)

def stalledContextItem : Phrase Unit :=
  stalledResponsibilities <|> stalledAggregate <|> stalledModule

def stalledContext : Phrase Unit :=
  openTitled .boundedContext (openBlock contextItem stalledContextItem)

end Phrase

theorem truncated_responsibilities : TruncatedItem Grammar.responsibilities Phrase.responsibilities
    (· = .keyword .responsibilities) Phrase.stalledResponsibilities (· = .symbol .comma) :=
  truncated_property .responsibilities truncated_strings

theorem truncated_wholeProperty {reader : Reader Token α} {phrase : Phrase α} (k : Keyword)
    (h : Truncated reader phrase .never noToken) :
    TruncatedItem (Grammar.property k reader) (Phrase.property k phrase) (· = .keyword k) .never noToken := by
  have hProperty := truncated_property k h
  rwa [Phrase.property_never] at hProperty

theorem truncated_knowledgeLevel : TruncatedItem Grammar.knowledgeLevel Phrase.knowledgeLevel
    (· = .keyword .knowledgeLevel) .never noToken :=
  truncated_wholeProperty .knowledgeLevel (truncated_keywordValue _ _).whole

theorem truncated_implementationTechnology : TruncatedItem Grammar.implementationTechnology
    Phrase.implementationTechnology (· = .keyword .implementationTechnology) .never noToken :=
  truncated_wholeProperty .implementationTechnology (TruncatedItem.whole truncated_string)

theorem truncated_aggregateItem : TruncatedItem Grammar.aggregateItem Phrase.aggregateItem startsAggregateItem
    Phrase.stalledAggregateItem prolongsItem := by
  have hService := TruncatedItem.map truncated_serviceDecl AggregateItem.service
  have hCommand := ((truncated_objectDecl .command).map AggregateItem.command).orElse hService (by simp)
  have hEvent := ((truncated_objectDecl .domainEvent).map AggregateItem.domainEvent).orElse hCommand (by simp)
  have hObject := ((truncated_objectDecl .valueObject).map AggregateItem.valueObject).orElse hEvent (by simp)
  have hEntity := (TruncatedItem.map truncated_entityDecl AggregateItem.entity).orElse hObject (by simp)
  have hLevel := (TruncatedItem.map truncated_knowledgeLevel AggregateItem.knowledgeLevel).orElse hEntity (by simp)
  have hAll := (TruncatedItem.map truncated_responsibilities AggregateItem.responsibilities).orElse hLevel (by simp)
  rw [Phrase.never_or] at hAll
  apply hAll.mono
  · exact fun _ h => h
  · simp +contextual [prolongsItem, noToken]

theorem truncated_aggregateDecl : TruncatedItem Grammar.aggregateDecl Phrase.aggregateDecl (· = .keyword .aggregate)
    Phrase.stalledAggregate noToken := by
  refine truncated_titled fun name => Truncated.map ?_ _
  apply truncated_block truncated_aggregateItem item_aggregateItem <;> simp [startsAggregateItem, prolongsItem]

theorem truncated_moduleDecl : TruncatedItem Grammar.moduleDecl Phrase.moduleDecl (· = .keyword .module)
    Phrase.stalledModule noToken := by
  refine truncated_titled fun name => Truncated.map ?_ _
  apply truncated_block truncated_aggregateDecl item_aggregateDecl <;> simp [noToken]

theorem truncated_contextItem : TruncatedItem Grammar.contextItem Phrase.contextItem startsContextItem
    Phrase.stalledContextItem prolongsItem := by
  have hModule := TruncatedItem.map truncated_moduleDecl ContextItem.module
  have hAggregate := (TruncatedItem.map truncated_aggregateDecl ContextItem.aggregate).orElse hModule (by simp)
  have hType := ((truncated_wholeProperty .type (truncated_keywordValue .contextType ContextType.ofKeyword?).whole).map
    ContextItem.type).orElse hAggregate (by simp)
  have hLevel := (TruncatedItem.map truncated_knowledgeLevel ContextItem.knowledgeLevel).orElse hType (by simp)
  have hTechnology := (TruncatedItem.map truncated_implementationTechnology
    ContextItem.implementationTechnology).orElse hLevel (by simp)
  have hTexts := (TruncatedItem.map truncated_responsibilities ContextItem.responsibilities).orElse hTechnology
    (by simp)
  have hAll := ((truncated_wholeProperty .domainVisionStatement (TruncatedItem.whole truncated_string)).map
    ContextItem.visionStatement).orElse hTexts (by simp)
  simp only [Phrase.never_or] at hAll
  apply hAll.mono
  · exact fun _ h => h
  · simp +contextual [prolongsItem, noToken]

theorem truncated_contextDecl : TruncatedItem Grammar.contextDecl Phrase.contextDecl (· = .keyword .boundedContext)
    Phrase.stalledContext noToken := by
  refine truncated_titled fun name => Truncated.map ?_ _
  apply truncated_block truncated_contextItem item_contextItem <;> simp [startsContextItem, prolongsItem]

end DomainAtlas
