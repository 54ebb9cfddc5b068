import DomainAtlas.Document
import Mathlib.Data.List.DropRight

/-! # Reading past trivia

Each reader of a single token passes over the trivia before it, and what is tried again, left over or counted are items,
trivia included. All the same a reader does on items what it does on the tokens among them: it accepts the same value, or
declines or refuses with the same complaint, and leaves the same tokens. That holds of each way to put readers together, and
so of each production, of the tries at the declarations of a document, and of the diagnostics.
-/
set_option autoImplicit false

namespace DomainAtlas

open Grammar Reader

variable {ι α β : Type} [Readable ι]

/-! ## The tokens among items -/

def bare (items : List ι) : List Token :=
  items.filterMap Readable.token?

theorem bare_append (front back : List ι) : bare (front ++ back) = bare front ++ bare back :=
  List.filterMap_append

theorem bare_cons_of_token {item : ι} {t : Token} (h : Readable.token? item = some t) (others : List ι) :
    bare (item :: others) = t :: bare others :=
  List.filterMap_cons_some h

theorem bare_cons_of_trivia {item : ι} (h : Readable.token? item = none) (others : List ι) :
    bare (item :: others) = bare others :=
  List.filterMap_cons_none h

theorem bare_suffix {items rest : List ι} (h : rest <:+ items) : bare rest <:+ bare items := by
  obtain ⟨front, rfl⟩ := h
  exact ⟨bare front, (bare_append front rest).symm⟩

theorem skipTrivia_suffix (items : List ι) : skipTrivia items <:+ items :=
  List.dropWhile_suffix _

theorem bare_skipTrivia (items : List ι) : bare (skipTrivia items) = bare items := by
  induction items with
  | nil => rfl
  | cons item others ih =>
    cases hToken : Readable.token? item with
    | none => rw [bare_cons_of_trivia hToken, ← ih, skipTrivia, List.dropWhile_cons_of_pos (by simp [hToken]), skipTrivia]
    | some t => rw [skipTrivia, List.dropWhile_cons_of_neg (by simp [hToken])]

theorem bare_eq_nil_of_skipTrivia {items : List ι} (h : skipTrivia items = []) : bare items = [] := by
  rw [← bare_skipTrivia, h]
  rfl

/-- Where trivia has been passed over there is a token, or nothing. -/
theorem skipTrivia_eq_cons {items others : List ι} {item : ι} (h : skipTrivia items = item :: others) :
    ∃ t, Readable.token? item = some t ∧ bare items = t :: bare others := by
  have hHead : (Readable.token? item).isNone = false := by
    have hNot := List.head?_dropWhile_not (fun item : ι => (Readable.token? item).isNone) items
    rw [← skipTrivia, h] at hNot
    simpa using hNot
  obtain ⟨t, hToken⟩ := Option.isSome_iff_exists.mp (by simpa using hHead)
  exact ⟨t, hToken, by rw [← bare_skipTrivia, h, bare_cons_of_token hToken]⟩

namespace Grammar

def Mismatch.bare (mismatch : Mismatch ι) : Mismatch Token :=
  ⟨mismatch.complaint, DomainAtlas.bare mismatch.rest⟩

def Outcome.bare : Outcome ι α → Outcome Token α
  | .accepted value rest => .accepted value (DomainAtlas.bare rest)
  | .declined mismatch => .declined mismatch.bare
  | .refused mismatch => .refused mismatch.bare

def Outcome.mismatch? : Outcome ι α → Option (Mismatch ι)
  | .accepted _ _ => none
  | .declined mismatch => some mismatch
  | .refused mismatch => some mismatch

end Grammar

/-! ## What readers leave -/

/-- All items are left, or a rear part of them with fewer tokens. -/
def Left (items rest : List ι) : Prop :=
  rest = items ∨ rest <:+ items ∧ (bare rest).length < (bare items).length

theorem Left.suffix {items rest : List ι} (h : Left items rest) : rest <:+ items := by
  rcases h with rfl | ⟨hSuffix, -⟩
  · exact List.suffix_rfl
  · exact hSuffix

theorem Left.trans {items between rest : List ι} (h : Left items between) (hRest : Left between rest) :
    Left items rest := by
  rcases hRest with rfl | ⟨hSuffix, hFewer⟩
  · exact h
  · exact .inr ⟨hSuffix.trans h.suffix, Nat.lt_of_lt_of_le hFewer (bare_suffix h.suffix).length_le⟩

/-- Whether items were taken shows in their number as in the number of the tokens. -/
theorem Left.length_lt_iff {items rest : List ι} (h : Left items rest) :
    rest.length < items.length ↔ (bare rest).length < (bare items).length := by
  rcases h with rfl | ⟨hSuffix, hFewer⟩
  · exact iff_of_false (Nat.lt_irrefl _) (Nat.lt_irrefl _)
  · refine iff_of_true (Nat.lt_of_le_of_ne hSuffix.length_le fun hLength => ?_) hFewer
    rw [hSuffix.eq_of_length hLength] at hFewer
    exact Nat.lt_irrefl _ hFewer

def Grammar.Outcome.Leaves (items : List ι) : Outcome ι α → Prop
  | .accepted _ rest => Left items rest
  | .declined mismatch => mismatch.rest <:+ items
  | .refused mismatch => mismatch.rest <:+ items

theorem Grammar.Outcome.Leaves.mono {items between : List ι} {outcome : Outcome ι α} (h : outcome.Leaves between)
    (hBetween : Left items between) : outcome.Leaves items := by
  cases outcome with
  | accepted value rest => exact hBetween.trans h
  | declined mismatch => exact List.IsSuffix.trans h hBetween.suffix
  | refused mismatch => exact List.IsSuffix.trans h hBetween.suffix

/-! ## Ways to put readers together -/

/-- `reader` does on items what `onTokens` does on the tokens among them. -/
structure SkipsTrivia (reader : Reader ι α) (onTokens : Reader Token α) : Prop where
  bare : ∀ items, (reader items).bare = onTokens (bare items)
  leaves : ∀ items, (reader items).Leaves items

namespace SkipsTrivia

variable {reader : Reader ι α} {onTokens : Reader Token α}

theorem onTokens_of_accepted (h : SkipsTrivia reader onTokens) {items rest : List ι} {value : α}
    (hAccepted : reader items = .accepted value rest) :
    onTokens (DomainAtlas.bare items) = .accepted value (DomainAtlas.bare rest) := by
  rw [← h.bare, hAccepted]
  rfl

theorem onTokens_of_declined (h : SkipsTrivia reader onTokens) {items : List ι} {mismatch : Mismatch ι}
    (hDeclined : reader items = .declined mismatch) :
    onTokens (DomainAtlas.bare items) = .declined mismatch.bare := by
  rw [← h.bare, hDeclined]
  rfl

theorem onTokens_of_refused (h : SkipsTrivia reader onTokens) {items : List ι} {mismatch : Mismatch ι}
    (hRefused : reader items = .refused mismatch) :
    onTokens (DomainAtlas.bare items) = .refused mismatch.bare := by
  rw [← h.bare, hRefused]
  rfl

theorem left_of_accepted (h : SkipsTrivia reader onTokens) {items rest : List ι} {value : α}
    (hAccepted : reader items = .accepted value rest) : Left items rest := by
  have hLeaves := h.leaves items
  rwa [hAccepted] at hLeaves

theorem suffix_of_declined (h : SkipsTrivia reader onTokens) {items : List ι} {mismatch : Mismatch ι}
    (hDeclined : reader items = .declined mismatch) : mismatch.rest <:+ items := by
  have hLeaves := h.leaves items
  rwa [hDeclined] at hLeaves

theorem suffix_of_refused (h : SkipsTrivia reader onTokens) {items : List ι} {mismatch : Mismatch ι}
    (hRefused : reader items = .refused mismatch) : mismatch.rest <:+ items := by
  have hLeaves := h.leaves items
  rwa [hRefused] at hLeaves

theorem onTokens_of_mismatch (h : SkipsTrivia reader onTokens) {items : List ι} {mismatch : Mismatch ι}
    (hMismatch : (reader items).mismatch? = some mismatch) :
    (onTokens (DomainAtlas.bare items)).mismatch? = some mismatch.bare := by
  rw [← h.bare]
  cases hRead : reader items <;> rw [hRead] at hMismatch <;> cases hMismatch <;> rfl

theorem suffix_of_mismatch (h : SkipsTrivia reader onTokens) {items : List ι} {mismatch : Mismatch ι}
    (hMismatch : (reader items).mismatch? = some mismatch) : mismatch.rest <:+ items := by
  have hLeaves := h.leaves items
  cases hRead : reader items <;> rw [hRead] at hMismatch hLeaves <;> cases hMismatch <;> exact hLeaves

theorem token (expected : Expected) (value? : Token → Option α) :
    SkipsTrivia (ι := ι) (Reader.token expected value?) (Reader.token expected value?) where
  bare items := by
    cases hSkipped : skipTrivia items with
    | nil =>
      simp only [Reader.token, hSkipped, bare_eq_nil_of_skipTrivia hSkipped]
      rfl
    | cons item others =>
      obtain ⟨t, hToken, hBare⟩ := skipTrivia_eq_cons hSkipped
      simp only [Reader.token, hSkipped, hToken, hBare, skipTrivia_tokens, token?_token, Option.bind_some]
      cases value? t with
      | none => simp only [Outcome.bare, Mismatch.bare, bare_cons_of_token hToken]
      | some value => rfl
  leaves items := by
    cases hSkipped : skipTrivia items with
    | nil =>
      simp only [Reader.token, hSkipped]
      exact List.nil_suffix
    | cons item others =>
      obtain ⟨t, hToken, hBare⟩ := skipTrivia_eq_cons hSkipped
      have hSuffix : item :: others <:+ items := hSkipped ▸ skipTrivia_suffix items
      simp only [Reader.token, hSkipped, hToken, Option.bind_some]
      cases value? t with
      | none => exact hSuffix
      | some value =>
        refine .inr ⟨(List.suffix_cons item others).trans hSuffix, ?_⟩
        rw [hBare]
        exact Nat.lt_succ_self _

theorem pure (value : α) : SkipsTrivia (ι := ι) (Pure.pure value) (Pure.pure value) where
  bare _ := rfl
  leaves _ := .inl rfl

theorem bind {next : α → Reader ι β} {nextOnTokens : α → Reader Token β} (h : SkipsTrivia reader onTokens)
    (hNext : ∀ value, SkipsTrivia (next value) (nextOnTokens value)) :
    SkipsTrivia (reader >>= next) (onTokens >>= nextOnTokens) where
  bare items := by
    cases hRead : reader items with
    | accepted value rest =>
      simp only [Bind.bind, hRead, h.onTokens_of_accepted hRead, (hNext value).bare]
    | declined mismatch =>
      simp only [Bind.bind, hRead, h.onTokens_of_declined hRead, Outcome.bare]
    | refused mismatch =>
      simp only [Bind.bind, hRead, h.onTokens_of_refused hRead, Outcome.bare]
  leaves items := by
    cases hRead : reader items with
    | accepted value rest =>
      simp only [Bind.bind, hRead]
      exact ((hNext value).leaves rest).mono (h.left_of_accepted hRead)
    | declined mismatch =>
      simp only [Bind.bind, hRead]
      exact h.suffix_of_declined hRead
    | refused mismatch =>
      simp only [Bind.bind, hRead]
      exact h.suffix_of_refused hRead

theorem map (f : α → β) (h : SkipsTrivia reader onTokens) : SkipsTrivia (f <$> reader) (f <$> onTokens) :=
  h.bind fun value => pure (f value)

theorem orElse {second : Unit → Reader ι α} {secondOnTokens : Unit → Reader Token α}
    (h : SkipsTrivia reader onTokens) (hSecond : SkipsTrivia (second ()) (secondOnTokens ())) :
    SkipsTrivia (HOrElse.hOrElse reader second) (HOrElse.hOrElse onTokens secondOnTokens) where
  bare items := by
    change (Reader.orElse reader second items).bare = Reader.orElse onTokens secondOnTokens _
    cases hRead : reader items with
    | accepted value rest => simp only [Reader.orElse, hRead, h.onTokens_of_accepted hRead, Outcome.bare]
    | declined mismatch => simp only [Reader.orElse, hRead, h.onTokens_of_declined hRead, hSecond.bare]
    | refused mismatch => simp only [Reader.orElse, hRead, h.onTokens_of_refused hRead, Outcome.bare]
  leaves items := by
    change (Reader.orElse reader second items).Leaves items
    cases hRead : reader items with
    | accepted value rest =>
      simp only [Reader.orElse, hRead]
      exact h.left_of_accepted hRead
    | declined mismatch =>
      simp only [Reader.orElse, hRead]
      exact hSecond.leaves items
    | refused mismatch =>
      simp only [Reader.orElse, hRead]
      exact h.suffix_of_refused hRead

theorem decline : SkipsTrivia (ι := ι) (Reader.decline (α := α)) Reader.decline where
  bare _ := rfl
  leaves _ := List.suffix_rfl

theorem commit (h : SkipsTrivia reader onTokens) : SkipsTrivia (Reader.commit reader) (Reader.commit onTokens) where
  bare items := by
    cases hRead : reader items with
    | accepted value rest => simp only [Reader.commit, hRead, h.onTokens_of_accepted hRead, Outcome.bare]
    | declined mismatch => simp only [Reader.commit, hRead, h.onTokens_of_declined hRead, Outcome.bare]
    | refused mismatch => simp only [Reader.commit, hRead, h.onTokens_of_refused hRead, Outcome.bare]
  leaves items := by
    cases hRead : reader items with
    | accepted value rest =>
      simp only [Reader.commit, hRead]
      exact h.left_of_accepted hRead
    | declined mismatch =>
      simp only [Reader.commit, hRead]
      exact h.suffix_of_declined hRead
    | refused mismatch =>
      simp only [Reader.commit, hRead]
      exact h.suffix_of_refused hRead

theorem bare_mark (expected : Expected) (mismatch : Mismatch ι) :
    (expecting.mark expected mismatch).bare = expecting.mark expected mismatch.bare := by
  obtain ⟨complaint, rest⟩ := mismatch
  cases complaint <;> rfl

theorem expecting (expected : Expected) (h : SkipsTrivia reader onTokens) :
    SkipsTrivia (Reader.expecting expected reader) (Reader.expecting expected onTokens) where
  bare items := by
    cases hRead : reader items with
    | accepted value rest => simp only [Reader.expecting, hRead, h.onTokens_of_accepted hRead, Outcome.bare]
    | declined mismatch =>
      simp only [Reader.expecting, hRead, h.onTokens_of_declined hRead, Outcome.bare, bare_mark]
    | refused mismatch =>
      simp only [Reader.expecting, hRead, h.onTokens_of_refused hRead, Outcome.bare, bare_mark]
  leaves items := by
    cases hRead : reader items with
    | accepted value rest =>
      simp only [Reader.expecting, hRead]
      exact h.left_of_accepted hRead
    | declined mismatch =>
      simp only [Reader.expecting, hRead, Outcome.Leaves, rest_mark]
      exact h.suffix_of_declined hRead
    | refused mismatch =>
      simp only [Reader.expecting, hRead, Outcome.Leaves, rest_mark]
      exact h.suffix_of_refused hRead

theorem satisfying (test : α → Bool) (h : SkipsTrivia reader onTokens) :
    SkipsTrivia (Reader.satisfying test reader) (Reader.satisfying test onTokens) where
  bare items := by
    cases hRead : reader items with
    | accepted value rest =>
      simp only [Reader.satisfying, hRead, h.onTokens_of_accepted hRead]
      cases test value <;> rfl
    | declined mismatch => simp only [Reader.satisfying, hRead, h.onTokens_of_declined hRead, Outcome.bare]
    | refused mismatch => simp only [Reader.satisfying, hRead, h.onTokens_of_refused hRead, Outcome.bare]
  leaves items := by
    cases hRead : reader items with
    | accepted value rest =>
      simp only [Reader.satisfying, hRead]
      cases test value with
      | false => exact List.suffix_rfl
      | true => exact h.left_of_accepted hRead
    | declined mismatch =>
      simp only [Reader.satisfying, hRead]
      exact h.suffix_of_declined hRead
    | refused mismatch =>
      simp only [Reader.satisfying, hRead]
      exact h.suffix_of_refused hRead

theorem optional (h : SkipsTrivia reader onTokens) :
    SkipsTrivia (Reader.optional reader) (Reader.optional onTokens) where
  bare items := by
    cases hRead : reader items with
    | accepted value rest => simp only [Reader.optional, hRead, h.onTokens_of_accepted hRead, Outcome.bare]
    | declined mismatch => simp only [Reader.optional, hRead, h.onTokens_of_declined hRead, Outcome.bare]
    | refused mismatch => simp only [Reader.optional, hRead, h.onTokens_of_refused hRead, Outcome.bare]
  leaves items := by
    cases hRead : reader items with
    | accepted value rest =>
      simp only [Reader.optional, hRead]
      exact h.left_of_accepted hRead
    | declined mismatch =>
      simp only [Reader.optional, hRead]
      exact .inl rfl
    | refused mismatch =>
      simp only [Reader.optional, hRead]
      exact h.suffix_of_refused hRead

/-- Along the values that are read: whether another one took an item is whether it took a token. -/
theorem many (h : SkipsTrivia reader onTokens) : SkipsTrivia (Reader.many reader) (Reader.many onTokens) := by
  suffices hBoth : ∀ items, (Reader.many reader items).bare = Reader.many onTokens (DomainAtlas.bare items) ∧
      (Reader.many reader items).Leaves items from ⟨fun items => (hBoth items).1, fun items => (hBoth items).2⟩
  intro items
  fun_induction Reader.many reader items with
  | case1 items value rest hRead hTook values last hMany ih =>
    have hLeft := h.left_of_accepted hRead
    obtain ⟨ihBare, ihLeaves⟩ := ih
    rw [hMany] at ihBare ihLeaves
    constructor
    · rw [Reader.many, h.onTokens_of_accepted hRead]
      simp only [hLeft.length_lt_iff.mp hTook, ↓reduceDIte, ← ihBare, Outcome.bare]
    · exact hLeft.trans ihLeaves
  | case2 items value rest hRead hTook mismatch hMany ih | case3 items value rest hRead hTook mismatch hMany ih =>
    have hLeft := h.left_of_accepted hRead
    obtain ⟨ihBare, ihLeaves⟩ := ih
    rw [hMany] at ihBare ihLeaves
    constructor
    · rw [Reader.many, h.onTokens_of_accepted hRead]
      simp only [hLeft.length_lt_iff.mp hTook, ↓reduceDIte, ← ihBare, Outcome.bare]
    · exact List.IsSuffix.trans ihLeaves hLeft.suffix
  | case4 items value rest hRead hTook =>
    have hLeft := h.left_of_accepted hRead
    refine ⟨?_, .inl rfl⟩
    rw [Reader.many, h.onTokens_of_accepted hRead]
    simp only [mt hLeft.length_lt_iff.mpr hTook, ↓reduceDIte, Outcome.bare]
  | case5 items mismatch hRead =>
    refine ⟨?_, .inl rfl⟩
    rw [Reader.many, h.onTokens_of_declined hRead]
    rfl
  | case6 items mismatch hRead =>
    refine ⟨?_, h.suffix_of_refused hRead⟩
    rw [Reader.many, h.onTokens_of_refused hRead]
    rfl

theorem separated {separator : Reader ι Unit} {separatorOnTokens : Reader Token Unit}
    (hSeparator : SkipsTrivia separator separatorOnTokens) (h : SkipsTrivia reader onTokens) :
    SkipsTrivia (Reader.separated separator reader) (Reader.separated separatorOnTokens onTokens) :=
  h.bind fun _ => (many (hSeparator.bind fun _ => h)).bind fun _ => pure _

theorem present (h : SkipsTrivia reader onTokens) :
    SkipsTrivia (Reader.present reader) (Reader.present onTokens) :=
  h.optional.bind fun _ => pure _

theorem orEmpty {reader : Reader ι (List α)} {onTokens : Reader Token (List α)} (h : SkipsTrivia reader onTokens) :
    SkipsTrivia (Reader.orEmpty reader) (Reader.orEmpty onTokens) :=
  h.optional.bind fun _ => pure _

end SkipsTrivia

section

variable {reader : Reader ι α} {onTokens : Reader Token α}

/-! ## Single tokens and lists of them -/

theorem skips_symbol (s : Symbol) : SkipsTrivia (symbol (ι := ι) s) (symbol s) :=
  .token _ _

theorem skips_keyword (k : Keyword) : SkipsTrivia (keyword (ι := ι) k) (keyword k) :=
  .token _ _

theorem skips_keywordValue (expected : Expected) (value? : Keyword → Option α) :
    SkipsTrivia (keywordValue (ι := ι) expected value?) (keywordValue expected value?) :=
  .token _ _

theorem skips_name : SkipsTrivia (name (ι := ι)) name :=
  .token _ _

theorem skips_attributeName : SkipsTrivia (attributeName (ι := ι)) attributeName :=
  .token _ _

theorem skips_word : SkipsTrivia (word (ι := ι)) word :=
  .token _ _

theorem skips_string : SkipsTrivia (string (ι := ι)) string :=
  .token _ _

theorem skips_names : SkipsTrivia (names (ι := ι)) names :=
  .separated (skips_symbol .comma) skips_name

theorem skips_strings : SkipsTrivia (strings (ι := ι)) strings :=
  .separated (skips_symbol .comma) skips_string

theorem SkipsTrivia.block (h : SkipsTrivia reader onTokens) :
    SkipsTrivia (Grammar.block reader) (Grammar.block onTokens) :=
  .bind (skips_symbol .leftBrace) fun _ => .bind h.many fun _ => .map _ (skips_symbol .rightBrace)

theorem SkipsTrivia.optionalBlock (h : SkipsTrivia reader onTokens) :
    SkipsTrivia (Grammar.optionalBlock reader) (Grammar.optionalBlock onTokens) :=
  h.block.orEmpty

theorem SkipsTrivia.property (k : Keyword) (h : SkipsTrivia reader onTokens) :
    SkipsTrivia (Grammar.property k reader) (Grammar.property k onTokens) :=
  .bind (skips_keyword k) fun _ => .commit <| .bind (skips_symbol .equals) fun _ => h

/-! ## Types and the members of aggregates -/

theorem skips_collectionKind : SkipsTrivia (collectionKind (ι := ι)) collectionKind :=
  skips_keywordValue _ _

/-- A token is found as well from the first one on. -/
theorem name_skipTrivia (items : List ι) : name (skipTrivia items) = name items := by
  simp only [name, Reader.token, skipTrivia, List.dropWhile_idempotent]

/-- Both readers of the element begin at its first token. -/
theorem skips_collectionElement : SkipsTrivia (collectionElement (ι := ι)) collectionElement where
  bare items := by
    have hBare := bare_skipTrivia items
    simp only [collectionElement, skipTrivia_tokens]
    cases hKind : collectionKind (skipTrivia items) with
    | accepted kind rest =>
      have hOnTokens := skips_collectionKind.onTokens_of_accepted hKind
      rw [hBare] at hOnTokens
      simp only [hOnTokens, Outcome.bare, Mismatch.bare, hBare]
    | declined mismatch =>
      have hOnTokens := skips_collectionKind.onTokens_of_declined hKind
      rw [hBare] at hOnTokens
      simp only [hOnTokens, skips_name.bare, hBare]
    | refused mismatch =>
      have hOnTokens := skips_collectionKind.onTokens_of_refused hKind
      rw [hBare] at hOnTokens
      simp only [hOnTokens, skips_name.bare, hBare]
  leaves items := by
    have hSkipped : skipTrivia items <:+ items := skipTrivia_suffix items
    have hName : (name items).Leaves items := skips_name.leaves items
    rw [← name_skipTrivia] at hName
    unfold collectionElement
    cases collectionKind (skipTrivia items) with
    | accepted kind rest => exact hSkipped
    | declined mismatch | refused mismatch => exact hName

theorem skips_collectionType : SkipsTrivia (collectionType (ι := ι)) collectionType :=
  .bind skips_collectionKind fun _ => .commit <| .bind (skips_symbol .lessThan) fun _ =>
    .bind skips_collectionElement fun _ => .map _ (skips_symbol .greaterThan)

theorem skips_referenceType : SkipsTrivia (referenceType (ι := ι)) referenceType :=
  .bind (skips_symbol .dash) fun _ => .commit (.map _ skips_name)

theorem skips_typeRef : SkipsTrivia (typeRef (ι := ι)) typeRef :=
  .expecting .type <| .orElse skips_collectionType <| .orElse skips_referenceType (.map _ skips_name)

theorem skips_attributeDecl : SkipsTrivia (attributeDecl (ι := ι)) attributeDecl :=
  .bind skips_typeRef fun _ => .commit <| .bind skips_attributeName fun _ =>
    .bind (.present (skips_keyword .key)) fun _ => .bind (.present (skips_keyword .nullable)) fun _ =>
      .map _ (.optional (skips_symbol .semicolon))

theorem skips_parameterDecl : SkipsTrivia (parameterDecl (ι := ι)) parameterDecl :=
  .bind skips_typeRef fun _ => .map _ skips_attributeName

theorem skips_operationName :
    SkipsTrivia (typedName (ι := ι) <|> bareName) (typedName <|> bareName) :=
  .orElse (.bind skips_typeRef fun _ => .map _ skips_attributeName) (.map _ skips_attributeName)

theorem skips_operationDecl : SkipsTrivia (operationDecl (ι := ι)) operationDecl :=
  .bind (skips_keyword .define) fun _ => .commit <| .bind skips_operationName fun _ =>
    .bind (skips_symbol .leftParen) fun _ =>
      .bind (.orEmpty (.separated (skips_symbol .comma) skips_parameterDecl)) fun _ =>
        .bind (skips_symbol .rightParen) fun _ => .map _ (.optional (skips_symbol .semicolon))

theorem skips_entityItem : SkipsTrivia (entityItem (ι := ι)) entityItem :=
  .orElse (.map _ (skips_keyword .aggregateRoot)) <|
    .orElse (.map _ skips_operationDecl) (.map _ skips_attributeDecl)

theorem skips_entityDecl : SkipsTrivia (entityDecl (ι := ι)) entityDecl :=
  .bind (skips_keyword .entity) fun _ => .commit <| .bind skips_name fun _ => .map _ (.optionalBlock skips_entityItem)

theorem skips_objectDecl (kind : Keyword) : SkipsTrivia (objectDecl (ι := ι) kind) (objectDecl kind) :=
  .bind (skips_keyword kind) fun _ => .commit <| .bind skips_name fun _ => .map _ (.optionalBlock skips_attributeDecl)

theorem skips_serviceDecl : SkipsTrivia (serviceDecl (ι := ι)) serviceDecl :=
  .bind (skips_keyword .service) fun _ => .commit <| .bind skips_name fun _ =>
    .map _ (.optionalBlock skips_operationDecl)

/-! ## Bounded contexts -/

theorem skips_responsibilities : SkipsTrivia (responsibilities (ι := ι)) responsibilities :=
  .property _ skips_strings

theorem skips_knowledgeLevel : SkipsTrivia (knowledgeLevel (ι := ι)) knowledgeLevel :=
  .property _ (skips_keywordValue _ _)

theorem skips_implementationTechnology :
    SkipsTrivia (implementationTechnology (ι := ι)) implementationTechnology :=
  .property _ skips_string

theorem skips_aggregateItem : SkipsTrivia (aggregateItem (ι := ι)) aggregateItem :=
  .orElse (.map _ skips_responsibilities) <| .orElse (.map _ skips_knowledgeLevel) <|
    .orElse (.map _ skips_entityDecl) <| .orElse (.map _ (skips_objectDecl .valueObject)) <|
      .orElse (.map _ (skips_objectDecl .domainEvent)) <| .orElse (.map _ (skips_objectDecl .command)) <|
        .map _ skips_serviceDecl

theorem skips_aggregateDecl : SkipsTrivia (aggregateDecl (ι := ι)) aggregateDecl :=
  .bind (skips_keyword .aggregate) fun _ => .commit <| .bind skips_name fun _ => .map _ (.block skips_aggregateItem)

theorem skips_moduleDecl : SkipsTrivia (moduleDecl (ι := ι)) moduleDecl :=
  .bind (skips_keyword .module) fun _ => .commit <| .bind skips_name fun _ => .map _ (.block skips_aggregateDecl)

theorem skips_contextItem : SkipsTrivia (contextItem (ι := ι)) contextItem :=
  .orElse (.map _ (.property _ skips_string)) <| .orElse (.map _ skips_responsibilities) <|
    .orElse (.map _ skips_implementationTechnology) <| .orElse (.map _ skips_knowledgeLevel) <|
      .orElse (.map _ (.property _ (skips_keywordValue _ _))) <| .orElse (.map _ skips_aggregateDecl) <|
        .map _ skips_moduleDecl

theorem skips_contextDecl : SkipsTrivia (contextDecl (ι := ι)) contextDecl :=
  .bind (skips_keyword .boundedContext) fun _ => .commit <| .bind skips_name fun _ => .map _ (.block skips_contextItem)

/-! ## Context maps -/

theorem skips_symmetricMark : SkipsTrivia (symmetricMark (ι := ι)) symmetricMark :=
  .bind (skips_symbol .leftBracket) fun _ => .bind (skips_keywordValue _ _) fun _ => .map _ (skips_symbol .rightBracket)

theorem skips_wordedRelationship : SkipsTrivia (wordedRelationship (ι := ι)) wordedRelationship :=
  .bind skips_name fun _ => .bind (skips_keywordValue _ _) fun _ => .commit (.map _ skips_name)

theorem skips_markedRelationship : SkipsTrivia (markedRelationship (ι := ι)) markedRelationship :=
  .bind skips_name fun _ => .bind skips_symmetricMark fun _ => .bind (skips_symbol .doubleArrow) fun _ =>
    .commit <| .bind (.expecting _ (.satisfying _ skips_symmetricMark)) fun _ => .map _ skips_name

theorem SkipsTrivia.roles (short long : Keyword) (h : SkipsTrivia reader onTokens) :
    SkipsTrivia (Grammar.roles short long reader) (Grammar.roles short long onTokens) :=
  .bind (skips_symbol .leftBracket) fun _ => .bind (.orElse (skips_keyword short) (skips_keyword long)) fun _ =>
    .commit <| .bind (.many (.bind (skips_symbol .comma) fun _ => h.commit)) fun _ =>
      .map _ (skips_symbol .rightBracket)

theorem skips_upstreamRoles : SkipsTrivia (upstreamRoles (ι := ι)) upstreamRoles :=
  .roles _ _ (skips_keywordValue _ _)

theorem skips_downstreamRoles : SkipsTrivia (downstreamRoles (ι := ι)) downstreamRoles :=
  .roles _ _ (skips_keywordValue _ _)

theorem skips_relationshipItem : SkipsTrivia (relationshipItem (ι := ι)) relationshipItem :=
  .orElse (.map _ (.property _ skips_names)) (.map _ skips_implementationTechnology)

theorem skips_forwardRelationship : SkipsTrivia (forwardRelationship (ι := ι)) forwardRelationship :=
  .bind skips_name fun _ => .bind (.orEmpty skips_upstreamRoles) fun _ => .bind (skips_symbol .arrow) fun _ =>
    .commit <| .bind (.orEmpty skips_downstreamRoles) fun _ => .bind (.expecting _ skips_name) fun _ =>
      .map _ (.optionalBlock skips_relationshipItem)

theorem skips_backwardRelationship : SkipsTrivia (backwardRelationship (ι := ι)) backwardRelationship :=
  .bind skips_name fun _ => .bind (.orEmpty skips_downstreamRoles) fun _ => .bind (skips_symbol .leftArrow) fun _ =>
    .commit <| .bind (.orEmpty skips_upstreamRoles) fun _ => .bind (.expecting _ skips_name) fun _ =>
      .map _ (.optionalBlock skips_relationshipItem)

theorem skips_relationship : SkipsTrivia (relationship (ι := ι)) relationship :=
  .expecting _ <| .orElse skips_wordedRelationship <| .orElse skips_markedRelationship <|
    .orElse skips_forwardRelationship skips_backwardRelationship

theorem skips_contained : SkipsTrivia (contained (ι := ι)) contained :=
  .bind (skips_keyword .contains) fun _ => .commit skips_names

theorem skips_mapItem : SkipsTrivia (mapItem (ι := ι)) mapItem :=
  .orElse (.map _ (.property _ skips_word)) <| .orElse (.map _ (.property _ (skips_keywordValue _ _))) <|
    .orElse (.map _ skips_contained) (.map _ skips_relationship)

theorem skips_mapDecl : SkipsTrivia (mapDecl (ι := ι)) mapDecl :=
  .bind (skips_keyword .contextMap) fun _ => .commit <| .bind (.optional skips_name) fun _ =>
    .map _ (.block skips_mapItem)

theorem skips_declaration : SkipsTrivia (declaration (ι := ι)) declaration :=
  .orElse (.map _ (.expecting _ skips_mapDecl)) <| .orElse (.map _ (.expecting _ skips_contextDecl)) <|
    .expecting _ .decline

end

end DomainAtlas
