import DomainAtlas.Grammar.Reader

/-! # Phrases

A phrase is a set of token lists, each with the value that it stands for. Phrases are put together as in
EBNF: one after another, one or another, any number of them, with or without. The alternatives of a
phrase have no order, a repetition may end anywhere, and nothing is committed to. `Reads` ties a
reader, which has an order, greed and commitment, to the phrase that it reads.
-/
set_option autoImplicit false

namespace DomainAtlas

def Phrase (α : Type) := List Token → α → Prop

namespace Phrase

variable {α β : Type}

instance : Monad Phrase where
  pure value tokens result := tokens = [] ∧ result = value
  bind phrase next tokens result :=
    ∃ front back value, tokens = front ++ back ∧ phrase front value ∧ next value back result

/-- One token that `value?` makes sense of. -/
def token (value? : Token → Option α) : Phrase α := fun tokens value =>
  ∃ t, tokens = [t] ∧ value? t = some value

/-- A phrase of either kind. -/
def either (first second : Phrase α) : Phrase α := fun tokens value =>
  first tokens value ∨ second tokens value

instance : OrElse (Phrase α) := ⟨fun first second => either first (second ())⟩

def never : Phrase α := fun _ _ => False

inductive many (phrase : Phrase α) : Phrase (List α)
  | nil : many phrase [] []
  | cons {front back : List Token} {value : α} {values : List α} (hFront : phrase front value)
      (hBack : many phrase back values) : many phrase (front ++ back) (value :: values)

inductive optional (phrase : Phrase α) : Phrase (Option α)
  | none : optional phrase [] none
  | some {tokens : List Token} {value : α} (h : phrase tokens value) :
      optional phrase tokens (some value)

/-- The phrases whose value is as `condition` says. -/
def satisfying (condition : α → Prop) (phrase : Phrase α) : Phrase α := fun tokens value =>
  phrase tokens value ∧ condition value

/-- One value or more, with `separator` between them. -/
def separated (separator : Phrase Unit) (phrase : Phrase α) : Phrase (List α) := do
  let first ← phrase
  let others ← many do
    separator
    phrase
  return first :: others

/-- Whether anything is there. -/
def present (phrase : Phrase α) : Phrase Bool := do
  let value? ← optional phrase
  return value?.isSome

/-- The values that are there, or none. -/
def orEmpty (phrase : Phrase (List α)) : Phrase (List α) := do
  let values? ← optional phrase
  return values?.getD []

theorem or_never (phrase : Phrase α) : (phrase <|> never) = phrase := by
  funext tokens value
  apply propext
  constructor
  · rintro (h | h)
    · exact h
    · exact h.elim
  · exact Or.inl

theorem map_iff {f : α → β} {phrase : Phrase α} {tokens : List Token} {result : β} :
    (f <$> phrase) tokens result ↔ ∃ value, phrase tokens value ∧ result = f value := by
  constructor
  · rintro ⟨front, back, value, rfl, hFront, rfl, rfl⟩
    exact ⟨value, by simpa using hFront, rfl⟩
  · rintro ⟨value, hValue, rfl⟩
    exact ⟨tokens, [], value, by simp, hValue, rfl, rfl⟩

theorem pure_bind (value : α) (next : α → Phrase β) : (pure value >>= next) = next value := by
  funext tokens result
  apply propext
  constructor
  · rintro ⟨front, back, value', rfl, ⟨rfl, rfl⟩, hNext⟩
    exact hNext
  · intro hNext
    exact ⟨[], tokens, value, rfl, ⟨rfl, rfl⟩, hNext⟩

theorem bind_assoc {γ : Type} (phrase : Phrase α) (next : α → Phrase β) (last : β → Phrase γ) :
    ((phrase >>= next) >>= last) = phrase >>= fun value => next value >>= last := by
  funext tokens result
  apply propext
  constructor
  · rintro ⟨_, back, between, rfl, ⟨front, middle, value, rfl, hFront, hMiddle⟩, hBack⟩
    exact ⟨front, middle ++ back, value, List.append_assoc .., hFront, middle, back, between, rfl,
      hMiddle, hBack⟩
  · rintro ⟨front, _, value, rfl, hFront, middle, back, between, rfl, hMiddle, hBack⟩
    exact ⟨front ++ middle, back, between, (List.append_assoc ..).symm,
      ⟨front, middle, value, rfl, hFront, hMiddle⟩, hBack⟩

/-- No phrase is empty, and each of them starts with a token of the class `first`. -/
def Begins (phrase : Phrase α) (first : Token → Prop) : Prop :=
  ∀ tokens value, phrase tokens value → ∃ t others, tokens = t :: others ∧ first t

/-- The first token, if there is one, is of the class `first`. -/
def MayBegin (phrase : Phrase α) (first : Token → Prop) : Prop :=
  ∀ tokens value, phrase tokens value → ∀ t ∈ tokens.head?, first t

theorem begins_token {value? : Token → Option α} {first : Token → Prop}
    (h : ∀ t value, value? t = some value → first t) : (token value?).Begins first := by
  rintro tokens value ⟨t, rfl, hValue⟩
  exact ⟨t, [], rfl, h t value hValue⟩

theorem Begins.bind {phrase : Phrase α} {first : Token → Prop} (h : phrase.Begins first)
    (next : α → Phrase β) : (phrase >>= next).Begins first := by
  rintro tokens result ⟨front, back, value, rfl, hFront, -⟩
  obtain ⟨t, others, rfl, hFirst⟩ := h front value hFront
  exact ⟨t, others ++ back, rfl, hFirst⟩

theorem Begins.map {phrase : Phrase α} {first : Token → Prop} (h : phrase.Begins first) (f : α → β) :
    (f <$> phrase).Begins first := h.bind _

theorem Begins.mono {phrase : Phrase α} {first wider : Token → Prop} (h : phrase.Begins first)
    (hWider : ∀ t, first t → wider t) : phrase.Begins wider := by
  intro tokens value hPhrase
  obtain ⟨t, others, hTokens, hFirst⟩ := h tokens value hPhrase
  exact ⟨t, others, hTokens, hWider t hFirst⟩

theorem mayBegin_pure (value : α) (first : Token → Prop) : (pure value : Phrase α).MayBegin first := by
  rintro tokens result ⟨rfl, -⟩ t ht
  simp at ht

theorem Begins.mayBegin_optional {phrase : Phrase α} {first : Token → Prop} (h : phrase.Begins first) :
    (optional phrase).MayBegin first := by
  intro tokens value hPhrase t ht
  cases hPhrase with
  | none => simp at ht
  | some hSome =>
    obtain ⟨u, others, rfl, hFirst⟩ := h _ _ hSome
    obtain rfl : u = t := by simpa using ht
    exact hFirst

theorem MayBegin.bind {phrase : Phrase α} {next : α → Phrase β} {first : Token → Prop}
    (h : phrase.MayBegin first) (hNext : ∀ value, (next value).MayBegin first) :
    (phrase >>= next).MayBegin first := by
  rintro tokens result ⟨front, back, value, rfl, hFront, hBack⟩ t ht
  cases front with
  | nil => exact hNext value back result hBack t ht
  | cons u others => exact h _ value hFront t (by simpa using ht)

theorem MayBegin.mono {phrase : Phrase α} {first wider : Token → Prop} (h : phrase.MayBegin first)
    (hWider : ∀ t, first t → wider t) : phrase.MayBegin wider :=
  fun tokens value hPhrase t ht => hWider t (h tokens value hPhrase t ht)

theorem MayBegin.map {phrase : Phrase α} {first : Token → Prop} (h : phrase.MayBegin first) (f : α → β) :
    (f <$> phrase).MayBegin first := h.bind fun value => mayBegin_pure (f value) first

end Phrase

/-- The next token is not of the class `kind`. -/
def Clear (kind : Token → Prop) (rest : List Token) : Prop :=
  ∀ t ∈ rest.head?, ¬ kind t

theorem clear_cons {kind : Token → Prop} {t : Token} {rest : List Token} :
    Clear kind (t :: rest) ↔ ¬ kind t := by
  simp [Clear]

theorem Clear.mono {kind narrower : Token → Prop} {rest : List Token} (h : Clear kind rest)
    (hNarrower : ∀ t, narrower t → kind t) : Clear narrower rest :=
  fun t ht hKind => h t ht (hNarrower t hKind)

end DomainAtlas
