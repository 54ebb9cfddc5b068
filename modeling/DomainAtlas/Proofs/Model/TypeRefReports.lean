import DomainAtlas.Proofs.Grammar.Places
import DomainAtlas.Proofs.Model.TypeRefs

/-! # What is said of texts that are no types

A text is a type reference if its tokens are those of one of the three shapes. Any other text that is made of tokens
yields one diagnostic. It complains of nesting if the tokens begin with a collection that has a collection for its
element, no matter how they go on, and then it points at the inner one.
-/
set_option autoImplicit false

namespace DomainAtlas

open Grammar

variable {α β : Type}

/-! ## Readers that never complain of nesting -/

/-- There is no mismatch, or it tells what was expected. -/
def Grammar.Outcome.Plain (outcome : Outcome Token α) : Prop :=
  ∀ mismatch, outcome.mismatch? = some mismatch → ∃ expected, mismatch.complaint = .unexpected expected

namespace Grammar.Reader

variable {reader second : Reader Token α} {next : α → Reader Token β} {tokens : List Token}

theorem plain_token (expected : Expected) (value? : Token → Option α) (tokens : List Token) :
    (token expected value? tokens).Plain := by
  intro mismatch h
  cases tokens with
  | nil =>
    cases h
    exact ⟨[expected], rfl⟩
  | cons t others =>
    cases hValue : value? t with
    | some value => simp [token, hValue, Outcome.mismatch?] at h
    | none =>
      obtain rfl : ⟨.unexpected [expected], t :: others⟩ = mismatch := by
        simpa [token, hValue, Outcome.mismatch?] using h
      exact ⟨[expected], rfl⟩

theorem plain_bind (hReader : (reader tokens).Plain)
    (hNext : ∀ value rest, reader tokens = .accepted value rest → (next value rest).Plain) :
    ((reader >>= next) tokens).Plain := by
  simp only [bind]
  cases hOutcome : reader tokens with
  | accepted value rest => exact hNext value rest hOutcome
  | declined mismatch | refused mismatch =>
    rw [hOutcome] at hReader
    exact hReader

theorem plain_pure (value : α) (tokens : List Token) : ((pure value : Reader Token α) tokens).Plain := by
  intro mismatch h
  cases h

theorem plain_commit (hReader : (reader tokens).Plain) : (commit reader tokens).Plain := by
  unfold commit
  cases hOutcome : reader tokens with
  | accepted value rest | declined mismatch | refused mismatch =>
    rw [hOutcome] at hReader
    exact hReader

theorem plain_orElse (hReader : (reader tokens).Plain) (hSecond : (second tokens).Plain) :
    ((reader <|> second) tokens).Plain := by
  simp only [HOrElse.hOrElse, OrElse.orElse, orElse]
  cases hOutcome : reader tokens with
  | declined mismatch => exact hSecond
  | accepted value rest | refused mismatch =>
    rw [hOutcome] at hReader
    exact hReader

theorem plain_expecting (expected : Expected) (hReader : (reader tokens).Plain) :
    (expecting expected reader tokens).Plain := by
  have hMark (mismatch : Mismatch Token) (hPlain : ∃ inner, mismatch.complaint = .unexpected inner) :
      ∃ inner, (expecting.mark expected mismatch).complaint = .unexpected inner := by
    obtain ⟨inner, hInner⟩ := hPlain
    rw [expecting.mark, hInner]
    exact ⟨inner ++ [expected], rfl⟩
  intro mismatch h
  unfold expecting at h
  cases hOutcome : reader tokens with
  | accepted value rest =>
    rw [hOutcome] at h
    cases h
  | declined inner | refused inner =>
    rw [hOutcome] at h hReader
    cases h
    exact hMark inner (hReader inner rfl)

end Grammar.Reader

open Grammar.Reader

/-! ## Collections of collections -/

/-- The beginning of a collection whose element is another one. -/
inductive NestsCollections : List Token → Prop
  | intro (outer inner : CollectionKind) (rest : List Token) :
      NestsCollections (.keyword outer.keyword :: .symbol .lessThan :: .keyword inner.keyword :: rest)

theorem typeRef_of_nestsCollections (outer inner : CollectionKind) (rest : List Token) :
    typeRef (.keyword outer.keyword :: .symbol .lessThan :: .keyword inner.keyword :: rest) =
      .refused ⟨.nestedCollection, .keyword inner.keyword :: rest⟩ := by
  cases outer <;> cases inner <;> rfl

theorem eq_cons_of_collectionKind {tokens rest : List Token} {kind : CollectionKind}
    (h : collectionKind tokens = .accepted kind rest) : tokens = .keyword kind.keyword :: rest := by
  obtain ⟨used, rfl, hPhrase⟩ := (Item.toReads (item_keywordValue .collectionKind _)).sound h
  obtain ⟨k, rfl, hOf⟩ := Phrase.keywordValue_iff.mp hPhrase
  rw [keyword_of_ofKeyword? hOf]
  rfl

theorem eq_cons_of_symbol {tokens rest : List Token} {s : Symbol} {value : Unit}
    (h : symbol s tokens = .accepted value rest) : tokens = .symbol s :: rest := by
  obtain ⟨used, rfl, hPhrase⟩ := (Item.toReads (item_symbol s)).sound h
  rw [Phrase.symbol_iff.mp hPhrase]
  rfl

theorem plain_collectionElement {tokens : List Token}
    (h : ∀ (inner : CollectionKind) (rest : List Token), tokens ≠ .keyword inner.keyword :: rest) :
    (collectionElement tokens).Plain := by
  rw [collectionElement, skipTrivia_tokens]
  split
  · rename_i kind rest hKind
    exact absurd (eq_cons_of_collectionKind hKind) (h kind rest)
  · exact plain_token _ _ _

theorem plain_collectionType {tokens : List Token} (h : ¬ NestsCollections tokens) : (collectionType tokens).Plain := by
  refine plain_bind (plain_token _ _ _) fun outer behind hOuter => plain_commit ?_
  refine plain_bind (plain_token _ _ _) fun _ element hOpen => ?_
  refine plain_bind (plain_collectionElement fun inner rest hInner => h ?_) fun _ _ _ => ?_
  · rw [eq_cons_of_collectionKind hOuter, eq_cons_of_symbol hOpen, hInner]
    exact .intro outer inner rest
  · exact plain_bind (plain_token _ _ _) fun _ rest _ => plain_pure _ rest

theorem plain_typeRef {tokens : List Token} (h : ¬ NestsCollections tokens) : (typeRef tokens).Plain := by
  have hReference : (referenceType tokens).Plain :=
    plain_bind (plain_token _ _ _) fun _ _ _ =>
      plain_commit (plain_bind (plain_token _ _ _) fun _ rest _ => plain_pure _ rest)
  have hNamed : (namedType tokens).Plain :=
    plain_bind (plain_token _ _ _) fun _ rest _ => plain_pure _ rest
  exact plain_expecting _ (plain_orElse (plain_collectionType h) (plain_orElse hReference hNamed))

/-- Where the tokens do not begin with nested collections, the reader tells what it expected. -/
theorem complaint_of_typeRef {tokens : List Token} {mismatch : Mismatch Token}
    (h : (typeRef tokens).mismatch? = some mismatch) :
    mismatch.complaint = .nestedCollection ↔ NestsCollections tokens := by
  constructor
  · intro hNested
    by_contra hOther
    obtain ⟨expected, hPlain⟩ := plain_typeRef hOther mismatch h
    rw [hNested] at hPlain
    cases hPlain
  · rintro ⟨outer, inner, rest⟩
    rw [typeRef_of_nestsCollections] at h
    cases h
    rfl

/-! ## The one diagnostic -/

theorem code_diagnostic_iff (tokens : List (Placed Token)) (mismatch : Mismatch Token) :
    (mismatch.diagnostic tokens).code = some .nestedCollection ↔ mismatch.complaint = .nestedCollection := by
  obtain ⟨complaint, rest⟩ := mismatch
  cases complaint with
  | nestedCollection => exact iff_of_true rfl rfl
  | unexpected expected =>
    have hUnexpected : Complaint.unexpected expected ≠ .nestedCollection := by
      intro h
      cases h
    refine iff_of_false ?_ hUnexpected
    rw [Mismatch.diagnostic, tokensOf_tokens]
    cases (placedRest tokens rest).head? with
    | none | some found =>
      intro h
      cases h

/-- Either no type can be read, or something follows the one that was read. -/
theorem exists_mismatch_of_typeRefOf {tokens : List (Placed Token)} {error : ParseError}
    (h : typeRefOf tokens = .error error) :
    ∃ mismatch : Mismatch Token, error.diagnostics = [mismatch.diagnostic tokens] ∧
      ((typeRef (tokens.map (·.value))).mismatch? = some mismatch ∨
        mismatch.complaint = .unexpected [.endOfType] ∧ (typeRef (tokens.map (·.value))).mismatch? = none) := by
  unfold typeRefOf at h
  split at h
  · rename_i type rest hAccepted
    rw [skipTrivia_tokens] at h
    split at h
    · cases h
    · cases h
      exact ⟨⟨.unexpected [.endOfType], rest⟩, rfl, .inr ⟨rfl, congrArg Outcome.mismatch? hAccepted⟩⟩
  · rename_i mismatch hDeclined
    cases h
    exact ⟨mismatch, rfl, .inl (congrArg Outcome.mismatch? hDeclined)⟩
  · rename_i mismatch hRefused
    cases h
    exact ⟨mismatch, rfl, .inl (congrArg Outcome.mismatch? hRefused)⟩

theorem typeRefOf_of_not_nestsCollections {tokens : List (Placed Token)} {error : ParseError}
    (h : typeRefOf tokens = .error error) (hPlain : ¬ NestsCollections (tokens.map (·.value))) :
    ∃ diagnostic, error.diagnostics = [diagnostic] ∧ diagnostic.code ≠ some .nestedCollection := by
  obtain ⟨mismatch, hError, hMismatch⟩ := exists_mismatch_of_typeRefOf h
  refine ⟨_, hError, fun hCode => ?_⟩
  have hNested := (code_diagnostic_iff tokens mismatch).mp hCode
  rcases hMismatch with hMismatch | ⟨hEnd, -⟩
  · exact hPlain ((complaint_of_typeRef hMismatch).mp hNested)
  · rw [hNested] at hEnd
    cases hEnd

theorem typeRefOf_of_nestsCollections {tokens : List (Placed Token)} (h : NestsCollections (tokens.map (·.value))) :
    ∃ outer opening inner others diagnostic, tokens = outer :: opening :: inner :: others ∧
      typeRefOf tokens = .error ⟨[diagnostic]⟩ ∧ diagnostic.code = some .nestedCollection ∧
      diagnostic.labels = [⟨inner.span, ErrorCode.nestedCollection.description, true⟩] := by
  generalize hValues : tokens.map (·.value) = values at h
  obtain ⟨kind, element, rest⟩ := h
  obtain ⟨outer, behind, rfl, hOuter, hBehind⟩ := List.map_eq_cons_iff.mp hValues
  obtain ⟨opening, behind, rfl, hOpening, hBehind⟩ := List.map_eq_cons_iff.mp hBehind
  obtain ⟨inner, others, rfl, hInner, rfl⟩ := List.map_eq_cons_iff.mp hBehind
  have hRead := typeRef_of_nestsCollections kind element (others.map (·.value))
  rw [← hValues] at hRead
  have hPlaced : placedRest (outer :: opening :: inner :: others)
      (.keyword element.keyword :: others.map (·.value)) = inner :: others := by
    rw [← hInner]
    exact placedRest_append [outer, opening] (inner :: others)
  refine ⟨outer, opening, inner, others, Mismatch.diagnostic (outer :: opening :: inner :: others)
    ⟨.nestedCollection, .keyword element.keyword :: others.map (·.value)⟩, rfl, ?_, rfl, ?_⟩
  · rw [typeRefOf, hRead]
  · rw [Mismatch.diagnostic, hPlaced, tokensOf_tokens]
    rfl

/-! ## Texts -/

/-- A text is a type if it is made of tokens and these are a name, a collection of a name or a reference to a name.
Where it is made of tokens and is no type, there is one diagnostic; it is about nesting exactly if the first three
tokens open a collection in a collection, and then it marks the third of them. -/
theorem TypeRef.ofText_eq_ok_iff_and_reports (text : String) :
    (∀ type : TypeRef, TypeRef.ofText text = .ok type ↔
      ∃ lexemes, lexemesOf text = .ok lexemes ∧ meaning lexemes = type.tokens) ∧
    ∀ lexemes error, lexemesOf text = .ok lexemes → TypeRef.ofText text = .error error →
      ∃ diagnostic, error.diagnostics = [diagnostic] ∧
        (diagnostic.code = some .nestedCollection ↔ NestsCollections (meaning lexemes)) ∧
        (NestsCollections (meaning lexemes) → ∃ outer opening inner others,
          tokensOf lexemes = outer :: opening :: inner :: others ∧
            diagnostic.labels = [⟨inner.span, ErrorCode.nestedCollection.description, true⟩]) := by
  constructor
  · intro type
    rw [TypeRef.ofText_eq_ok]
    constructor
    · rintro ⟨tokens, hScans, hType⟩
      rw [Phrase.eq_tokens_of_typeRef hType] at hScans
      exact lexemesOf_iff_scans.mpr hScans
    · intro h
      exact ⟨type.tokens, lexemesOf_iff_scans.mp h, Phrase.typeRef_tokens type⟩
  · intro lexemes error hLexemes hError
    have hRefused : typeRefOf (tokensOf lexemes) = .error error := by
      rw [typeRefOf_tokensOf]
      rwa [TypeRef.ofText, hLexemes] at hError
    by_cases hNests : NestsCollections (meaning lexemes)
    · obtain ⟨outer, opening, inner, others, diagnostic, hTokens, hOne, hCode, hLabels⟩ :=
        typeRefOf_of_nestsCollections hNests
      obtain rfl := Except.error.inj (hRefused.symm.trans hOne)
      exact ⟨diagnostic, rfl, iff_of_true hCode hNests, fun _ => ⟨outer, opening, inner, others, hTokens, hLabels⟩⟩
    · obtain ⟨diagnostic, hOne, hCode⟩ := typeRefOf_of_not_nestsCollections hRefused hNests
      exact ⟨diagnostic, hOne, iff_of_false hCode hNests, fun h => absurd h hNests⟩

/-- A set in a list is complained of, with a comment in between as well. -/
theorem TypeRef.ofText_eq_ok_iff_and_reports_listOfSets :
    ∃ lexemes error diagnostic, lexemesOf "List< /* c */ Set<A>>" = .ok lexemes ∧
      TypeRef.ofText "List< /* c */ Set<A>>" = .error error ∧ NestsCollections (meaning lexemes) ∧
      error.diagnostics = [diagnostic] ∧ diagnostic.code = some .nestedCollection ∧
      diagnostic.labels = [⟨.ofBounds 14 17, "nested generic type", true⟩] := by
  have hLexemes : lexemesOf "List< /* c */ Set<A>>" =
      .ok ((lex 0 "List< /* c */ Set<A>>".toList).filterMap Piece.lexeme?) := by decide +kernel
  have hError : TypeRef.ofText "List< /* c */ Set<A>>" = .error ⟨[
      { severity := .error
        code := some .nestedCollection
        message := "nested generic types are not supported"
        labels := [⟨.ofBounds 14 17, "nested generic type", true⟩]
        help := some "introduce a value object that holds the inner collection" }]⟩ := by decide +kernel
  obtain ⟨diagnostic, hOne, hCode, -⟩ := (TypeRef.ofText_eq_ok_iff_and_reports _).2 _ _ hLexemes hError
  obtain rfl := List.singleton_inj.mp hOne
  exact ⟨_, _, _, hLexemes, hError, hCode.mp rfl, rfl, rfl, rfl⟩

end DomainAtlas
