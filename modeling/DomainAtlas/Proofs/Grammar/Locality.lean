import DomainAtlas.Document
import DomainAtlas.Proofs.Grammar.Reads

/-! # Readers stop before declarations

What a reader makes of some tokens is not changed by what follows them when that starts with a keyword that opens a
declaration: the reader does not get past the keyword. Nor does it give tokens back that were not there. `Local` says
both, the first for the tokens of a class, and each way to put readers together keeps it.
-/
set_option autoImplicit false

namespace DomainAtlas

open Grammar

variable {α β : Type}

/-- No token opens a declaration. -/
def Interior (tokens : List Token) : Prop :=
  ∀ t ∈ tokens, opensDeclaration t = false

/-- Either nothing is left or the next token opens a declaration. -/
def Boundary (next : List Token) : Prop :=
  ∀ t ∈ next.head?, opensDeclaration t = true

theorem Interior.suffix {tokens rest : List Token} (h : Interior tokens) (hSuffix : rest <:+ tokens) :
    Interior rest :=
  fun t ht => h t (hSuffix.subset ht)

/-- The same mismatch with `next` after the tokens that are left. -/
def Grammar.Mismatch.before (next : List Token) (mismatch : Mismatch Token) : Mismatch Token :=
  ⟨mismatch.complaint, mismatch.rest ++ next⟩

@[simp] theorem Grammar.Mismatch.before_nil : Mismatch.before [] = id := by
  funext mismatch
  simp [Mismatch.before]

namespace Grammar.Outcome

def rest : Outcome Token α → List Token
  | accepted _ rest => rest
  | declined mismatch => mismatch.rest
  | refused mismatch => mismatch.rest

def before (next : List Token) : Outcome Token α → Outcome Token α
  | accepted value rest => .accepted value (rest ++ next)
  | declined mismatch => .declined (mismatch.before next)
  | refused mismatch => .refused (mismatch.before next)

end Grammar.Outcome

open Grammar.Outcome

/-- What the reader leaves is the end of what it was given, and before a declaration it reads tokens of the class `Ok`
as it reads them alone. -/
structure Local (reader : Reader Token α) (Ok : List Token → Prop) : Prop where
  suffix : ∀ tokens, (reader tokens).rest <:+ tokens
  before : ∀ {tokens next}, Ok tokens → Boundary next → reader (tokens ++ next) = (reader tokens).before next

/-- The tokens open no declaration and are no phrase of `cut`. -/
def Free (cut : Phrase Unit) (tokens : List Token) : Prop :=
  Interior tokens ∧ ¬ cut tokens ()

namespace Local

variable {reader second : Reader Token α} {Ok Wider Both : List Token → Prop} {cut : Phrase Unit}

theorem mono (h : Local reader Wider) (hOk : ∀ tokens, Ok tokens → Wider tokens) : Local reader Ok where
  suffix := h.suffix
  before hTokens hNext := h.before (hOk _ hTokens) hNext

theorem free (h : Local reader Interior) (cut : Phrase Unit) : Local reader (Free cut) :=
  h.mono fun _ hFree => hFree.1

theorem suffix_of_accepted (h : Local reader Ok) {tokens rest : List Token} {value : α}
    (hAccepted : reader tokens = .accepted value rest) : rest <:+ tokens := by
  have hSuffix := h.suffix tokens
  rw [hAccepted] at hSuffix
  exact hSuffix

/-! ## Tokens -/

theorem pure (value : α) (Ok : List Token → Prop) : Local (Pure.pure value : Reader Token α) Ok where
  suffix tokens := List.suffix_refl tokens
  before _ _ := rfl

/-- At the end of the tokens it matters whether a keyword that follows would do. -/
theorem tokenOn {value? : Token → Option α} (expected : Expected)
    (h : Ok [] → ∀ t, opensDeclaration t = true → value? t = none) : Local (Reader.token expected value?) Ok where
  suffix tokens := by
    cases tokens with
    | nil => exact List.suffix_refl []
    | cons t others => cases hValue : value? t <;> simp [Reader.token, hValue, rest]
  before {tokens next} hOk hNext := by
    cases tokens with
    | cons t others => cases hValue : value? t <;> simp [Reader.token, hValue, Outcome.before, Mismatch.before]
    | nil =>
      cases next with
      | nil => rfl
      | cons t others => simp [Reader.token, h hOk t (hNext t rfl), Outcome.before, Mismatch.before]

theorem token {value? : Token → Option α} (expected : Expected)
    (h : ∀ t, opensDeclaration t = true → value? t = none) : Local (Reader.token expected value?) Interior :=
  tokenOn expected fun _ => h

/-! ## One after another -/

theorem bindOn {next : α → Reader Token β} {Next : α → List Token → Prop} (h : Local reader Ok)
    (hNext : ∀ value, Local (next value) (Next value)) (hFirst : ∀ tokens, Both tokens → Ok tokens)
    (hSecond : ∀ tokens value rest, Both tokens → reader tokens = .accepted value rest → Next value rest) :
    Local (reader >>= next) Both where
  suffix tokens := by
    have hSuffix := h.suffix tokens
    simp only [Bind.bind]
    generalize reader tokens = outcome at hSuffix ⊢
    cases outcome with
    | accepted value rest => exact ((hNext value).suffix rest).trans hSuffix
    | declined mismatch => exact hSuffix
    | refused mismatch => exact hSuffix
  before {tokens following} hBoth hBoundary := by
    have hBefore := h.before (hFirst tokens hBoth) hBoundary
    simp only [Bind.bind, hBefore]
    cases hReader : reader tokens with
    | accepted value rest => exact (hNext value).before (hSecond tokens value rest hBoth hReader) hBoundary
    | declined mismatch => rfl
    | refused mismatch => rfl

theorem bind {next : α → Reader Token β} (h : Local reader Interior) (hNext : ∀ value, Local (next value) Interior) :
    Local (reader >>= next) Interior :=
  h.bindOn hNext (fun _ => id) fun _ _ _ hInterior hAccepted => hInterior.suffix (h.suffix_of_accepted hAccepted)

/-- The tokens that are cut off may begin in the first reader. -/
theorem bindCut {next : α → Reader Token β} (h : Local reader (Free cut)) (hNext : ∀ value, Local (next value) Interior) :
    Local (reader >>= next) (Free cut) :=
  h.bindOn hNext (fun _ => id) fun _ _ _ hFree hAccepted => hFree.1.suffix (h.suffix_of_accepted hAccepted)

/-- The tokens that are cut off begin after what the first reader accepts. -/
theorem bindFree {phrase : Phrase α} {last : Token → Prop} {next : α → Reader Token β} {cut : α → Phrase Unit}
    (h : Local reader Interior) (hReads : Reads reader phrase last)
    (hNext : ∀ value, Local (next value) (Free (cut value))) : Local (reader >>= next) (Free (phrase >>= cut)) := by
  refine h.bindOn hNext (fun _ hFree => hFree.1) fun tokens value rest hFree hAccepted => ?_
  refine ⟨hFree.1.suffix (h.suffix_of_accepted hAccepted), fun hCut => hFree.2 ?_⟩
  obtain ⟨used, rfl, hPhrase⟩ := hReads.sound hAccepted
  exact ⟨used, rest, value, rfl, hPhrase, hCut⟩

theorem map (h : Local reader Ok) (f : α → β) : Local (f <$> reader) Ok :=
  h.bindOn (fun value => pure (f value) fun _ => True) (fun _ => id) fun _ _ _ _ _ => trivial

/-! ## Choices and repetitions -/

theorem commit (h : Local reader Ok) : Local (Reader.commit reader) Ok where
  suffix tokens := by
    have hSuffix := h.suffix tokens
    unfold Reader.commit
    generalize reader tokens = outcome at hSuffix ⊢
    cases outcome <;> exact hSuffix
  before {tokens next} hOk hNext := by
    simp only [Reader.commit, h.before hOk hNext]
    cases reader tokens <;> rfl

theorem mark_before (expected : Expected) (mismatch : Mismatch Token) (next : List Token) :
    Reader.expecting.mark expected (mismatch.before next) =
      (Reader.expecting.mark expected mismatch).before next := by
  obtain ⟨complaint, rest⟩ := mismatch
  cases complaint <;> rfl

theorem expecting (h : Local reader Ok) (expected : Expected) : Local (Reader.expecting expected reader) Ok where
  suffix tokens := by
    have hSuffix := h.suffix tokens
    unfold Reader.expecting
    generalize reader tokens = outcome at hSuffix ⊢
    cases outcome <;> simpa only [Outcome.rest, Reader.rest_mark] using hSuffix
  before {tokens next} hOk hNext := by
    simp only [Reader.expecting, h.before hOk hNext]
    cases reader tokens <;> simp only [Outcome.before, mark_before]

theorem satisfying (h : Local reader Ok) (test : α → Bool) : Local (Reader.satisfying test reader) Ok where
  suffix tokens := by
    have hSuffix := h.suffix tokens
    unfold Reader.satisfying
    generalize reader tokens = outcome at hSuffix ⊢
    cases outcome with
    | accepted value rest =>
      dsimp only
      split
      · exact hSuffix
      · exact List.suffix_refl tokens
    | declined mismatch => exact hSuffix
    | refused mismatch => exact hSuffix
  before {tokens next} hOk hNext := by
    simp only [Reader.satisfying, h.before hOk hNext]
    cases reader tokens with
    | accepted value rest => cases hTest : test value <;> simp only [Outcome.before, hTest] <;> rfl
    | declined mismatch => rfl
    | refused mismatch => rfl

theorem orElse (h : Local reader Ok) (hSecond : Local second Ok) : Local (reader <|> second) Ok where
  suffix tokens := by
    have hSuffix := h.suffix tokens
    simp only [HOrElse.hOrElse, OrElse.orElse, Reader.orElse]
    generalize reader tokens = outcome at hSuffix ⊢
    cases outcome with
    | accepted value rest => exact hSuffix
    | declined mismatch => exact hSecond.suffix tokens
    | refused mismatch => exact hSuffix
  before {tokens next} hOk hNext := by
    simp only [HOrElse.hOrElse, OrElse.orElse, Reader.orElse, h.before hOk hNext]
    cases reader tokens with
    | accepted value rest => rfl
    | declined mismatch => exact hSecond.before hOk hNext
    | refused mismatch => rfl

theorem optional (h : Local reader Ok) : Local (Reader.optional reader) Ok where
  suffix tokens := by
    have hSuffix := h.suffix tokens
    unfold Reader.optional
    generalize reader tokens = outcome at hSuffix ⊢
    cases outcome with
    | accepted value rest => exact hSuffix
    | declined mismatch => exact List.suffix_refl tokens
    | refused mismatch => exact hSuffix
  before {tokens next} hOk hNext := by
    simp only [Reader.optional, h.before hOk hNext]
    cases reader tokens <;> rfl

theorem present (h : Local reader Ok) : Local (Reader.present reader) Ok :=
  h.optional.map _

theorem orEmpty {reader : Reader Token (List α)} (h : Local reader Ok) : Local (Reader.orEmpty reader) Ok :=
  h.optional.map _

/-- What is left after an item has to be of the class too. -/
theorem manyOn (h : Local reader Ok)
    (hKeep : ∀ tokens value rest, Ok tokens → reader tokens = .accepted value rest → Ok rest) :
    Local (Reader.many reader) Ok where
  suffix tokens := by
    fun_induction Reader.many reader tokens with
    | case1 tokens value rest hReader hShorter values last hMany ih =>
      rw [hMany] at ih
      exact ih.trans (h.suffix_of_accepted hReader)
    | case2 tokens value rest hReader hShorter mismatch hMany ih
    | case3 tokens value rest hReader hShorter mismatch hMany ih =>
      rw [hMany] at ih
      exact ih.trans (h.suffix_of_accepted hReader)
    | case4 | case5 => exact List.suffix_refl _
    | case6 tokens mismatch hReader =>
      have hSuffix := h.suffix tokens
      rw [hReader] at hSuffix
      exact hSuffix
  before {tokens next} hOk hNext := by
    have hLength (rest tokens : List Token) :
        (rest ++ next).length < (tokens ++ next).length ↔ rest.length < tokens.length := by
      simp only [List.length_append, Nat.add_lt_add_iff_right]
    fun_induction Reader.many reader tokens with
    | case1 tokens value rest hReader hShorter values last hMany ih =>
      have hRest := ih (hKeep tokens value rest hOk hReader)
      rw [Reader.many, h.before hOk hNext, hReader]
      simp only [Outcome.before, hRest, hMany, dif_pos ((hLength rest tokens).mpr hShorter)]
    | case2 tokens value rest hReader hShorter mismatch hMany ih
    | case3 tokens value rest hReader hShorter mismatch hMany ih =>
      have hRest := ih (hKeep tokens value rest hOk hReader)
      rw [Reader.many, h.before hOk hNext, hReader]
      simp only [Outcome.before, hRest, hMany, dif_pos ((hLength rest tokens).mpr hShorter)]
    | case4 tokens value rest hReader hNotShorter =>
      rw [Reader.many, h.before hOk hNext, hReader]
      simp only [Outcome.before, dif_neg (mt (hLength rest tokens).mp hNotShorter)]
    | case5 tokens mismatch hReader | case6 tokens mismatch hReader =>
      rw [Reader.many, h.before hOk hNext, hReader]
      rfl

theorem many (h : Local reader Interior) : Local (Reader.many reader) Interior :=
  h.manyOn fun _ _ _ hInterior hAccepted => hInterior.suffix (h.suffix_of_accepted hAccepted)

/-- The tokens that are cut off begin after some items. -/
theorem manyFree {phrase : Phrase α} {last : Token → Prop} (h : Local reader (Free cut))
    (hReads : Reads reader phrase last) :
    Local (Reader.many reader) (Free (Phrase.many phrase >>= fun _ => cut)) := by
  have hFirst : ∀ tokens, Free (Phrase.many phrase >>= fun _ => cut) tokens → Free cut tokens :=
    fun tokens hFree => ⟨hFree.1, fun hCut => hFree.2 ⟨[], tokens, [], rfl, .nil, hCut⟩⟩
  refine (h.mono hFirst).manyOn fun tokens value rest hFree hAccepted => ?_
  refine ⟨hFree.1.suffix (h.suffix_of_accepted hAccepted), ?_⟩
  rintro ⟨front, back, values, rfl, hMany, hCut⟩
  obtain ⟨used, rfl, hPhrase⟩ := hReads.sound hAccepted
  exact hFree.2 ⟨used ++ front, back, value :: values, (List.append_assoc ..).symm, .cons hPhrase hMany, hCut⟩

theorem separated {separator : Reader Token Unit} (hSeparator : Local separator Interior) (h : Local reader Interior) :
    Local (Reader.separated separator reader) Interior :=
  h.bind fun _ => (hSeparator.bind fun _ => h).many.map _

end Local

end DomainAtlas
