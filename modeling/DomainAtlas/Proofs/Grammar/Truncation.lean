import DomainAtlas.Proofs.Grammar.Locality
import Mathlib.Data.List.TakeWhile

/-! # Phrases that break off

What a reader makes of the beginning of a phrase. As a rule it takes all the tokens and reports that they have run out.
But before it commits it gives back what it took, and then something else fails at tokens that are right: it stalls.
`Truncated` tells the beginnings where a reader stalls from those where it does not, and each way to put readers
together keeps it.
-/
set_option autoImplicit false

namespace DomainAtlas

open Grammar

variable {α β : Type}

namespace Grammar

/-- More tokens were expected. -/
def Mismatch.RanOut (mismatch : Mismatch Token) : Prop :=
  mismatch.rest = [] ∧ ∃ expected, mismatch.complaint = .unexpected expected

/-- Something else was expected than the tokens that are there. -/
def Mismatch.Misplaced (mismatch : Mismatch Token) : Prop :=
  mismatch.rest ≠ [] ∧ ∃ expected, mismatch.complaint = .unexpected expected

namespace Outcome

def Declined : Outcome Token α → Prop
  | declined _ => True
  | _ => False

/-- All tokens were taken. -/
def Ended : Outcome Token α → Prop
  | accepted _ rest => rest = []
  | declined mismatch => mismatch.RanOut
  | refused mismatch => mismatch.RanOut

/-- Tokens are left; if a value was read, they start with one of the class `last`. -/
def Stalled (last : Token → Prop) : Outcome Token α → Prop
  | accepted _ rest => ∃ t ∈ rest.head?, last t
  | declined mismatch => mismatch.Misplaced
  | refused mismatch => mismatch.Misplaced

end Outcome

/-- The reader never declines. -/
def Reader.Firm (reader : Reader Token α) : Prop :=
  ∀ tokens, ¬ (reader tokens).Declined

end Grammar

open Grammar.Outcome Grammar.Reader

/-- What the reader makes of the beginnings of a phrase: it takes them whole, but for those of `stall`. -/
structure Truncated (reader : Reader Token α) (phrase : Phrase α) (stall : Phrase Unit) (last : Token → Prop) : Prop where
  empty : (reader []).Ended
  ends : ∀ {front back value}, phrase (front ++ back) value → ¬ stall front () → (reader front).Ended
  stalls : ∀ {front}, stall front () → (reader front).Stalled last

/-- The same for a reader whose declining is no failure: after the first token it does not decline unless it stalls. -/
structure TruncatedItem (reader : Reader Token α) (phrase : Phrase α) (first : Token → Prop) (stall : Phrase Unit)
    (last : Token → Prop) : Prop where
  begins : phrase.Begins first
  declines : Declines reader first
  empty : (reader []).Ended
  ends : ∀ {front back value}, phrase (front ++ back) value → front ≠ [] → ¬ stall front () →
    (reader front).Ended ∧ ¬ (reader front).Declined
  stalls : ∀ {front}, stall front () →
    (∃ t ∈ front.head?, first t) ∧ ((reader front).Declined ∨ (reader front).Stalled last)

/-! ## Phrases that never occur -/

namespace Phrase

@[simp] theorem never_or (phrase : Phrase α) : (never <|> phrase) = phrase := by
  funext tokens value
  exact propext ⟨fun h => h.resolve_left id, .inr⟩

@[simp] theorem bind_never (phrase : Phrase α) : (phrase >>= fun _ => (never : Phrase β)) = never := by
  funext tokens value
  refine propext ⟨?_, False.elim⟩
  rintro ⟨_, _, _, -, -, hNever⟩
  exact hNever

theorem bind_or (phrase : Phrase α) (next other : α → Phrase β) :
    (phrase >>= fun value => next value <|> other value) = (phrase >>= next <|> phrase >>= other) := by
  funext tokens result
  refine propext ⟨?_, ?_⟩
  · rintro ⟨front, back, value, rfl, hFront, hBack | hBack⟩
    · exact .inl ⟨front, back, value, rfl, hFront, hBack⟩
    · exact .inr ⟨front, back, value, rfl, hFront, hBack⟩
  · rintro (⟨front, back, value, rfl, hFront, hBack⟩ | ⟨front, back, value, rfl, hFront, hBack⟩)
    · exact ⟨front, back, value, rfl, hFront, .inl hBack⟩
    · exact ⟨front, back, value, rfl, hFront, .inr hBack⟩

end Phrase

/-- What all alternatives begin with may be read once, as an alternative starts where the one before it did. -/
theorem Grammar.Reader.bind_orElse (reader : Reader Token α) (next other : α → Reader Token β) :
    (reader >>= fun value => next value <|> other value) = (reader >>= next <|> reader >>= other) := by
  funext tokens
  simp only [Bind.bind, HOrElse.hOrElse, OrElse.orElse, orElse]
  cases reader tokens <;> rfl

theorem Clear.of_append {kind : Token → Prop} {front back : List Token} (h : Clear kind (front ++ back)) :
    Clear kind front := by
  cases front with
  | nil => simp [Clear]
  | cons t others => exact clear_cons.mpr (clear_cons.mp h)

theorem clear_of_head {first kind : Token → Prop} {tokens : List Token} (h : ∃ t ∈ tokens.head?, first t)
    (hApart : ∀ t, first t → ¬ kind t) : Clear kind tokens := by
  obtain ⟨t, ht, hFirst⟩ := h
  intro u hu
  obtain rfl : t = u := Option.some.inj (ht.symm.trans hu)
  exact hApart t hFirst

theorem not_head_noToken {rest : List Token} : ¬ ∃ t ∈ rest.head?, noToken t := by
  rintro ⟨t, -, hNone⟩
  exact hNone

/-- A reader that stops before declarations reads no keyword that opens one. -/
theorem interior_of_phrase {reader : Reader Token α} {phrase : Phrase α} {last : Token → Prop} (h : Local reader Interior)
    (hReads : Reads reader phrase last) {tokens : List Token} {value : α} (hPhrase : phrase tokens value) :
    Interior tokens := by
  have hTokens : (tokens.takeWhile fun t => !opensDeclaration t) ++ (tokens.dropWhile fun t => !opensDeclaration t) =
      tokens := List.takeWhile_append_dropWhile
  have hFront : Interior (tokens.takeWhile fun t => !opensDeclaration t) := by
    intro t ht
    simpa using List.mem_takeWhile_imp ht
  have hBack : Boundary (tokens.dropWhile fun t => !opensDeclaration t) := by
    intro t ht
    have hHead := List.head?_dropWhile_not (fun t => !opensDeclaration t) tokens
    simpa [Option.mem_def.mp ht] using hHead
  generalize tokens.takeWhile (fun t => !opensDeclaration t) = front at *
  generalize tokens.dropWhile (fun t => !opensDeclaration t) = back at *
  have hComplete : reader (tokens ++ []) = .accepted value [] := hReads.complete hPhrase (by simp [Clear])
  rw [List.append_nil, ← hTokens, h.before hFront hBack] at hComplete
  cases hOutcome : reader front with
  | accepted value rest =>
    rw [hOutcome] at hComplete
    obtain ⟨-, hNone⟩ := List.append_eq_nil_iff.mp (Outcome.accepted.inj hComplete).2
    rw [← hTokens, hNone, List.append_nil]
    exact hFront
  | declined mismatch | refused mismatch =>
    rw [hOutcome] at hComplete
    cases hComplete

/-! ## Outcomes -/

theorem declined_iff {outcome : Outcome Token α} : outcome.Declined ↔ ∃ mismatch, outcome = .declined mismatch := by
  cases outcome <;> simp [Declined]

theorem Grammar.Outcome.Stalled.mono {outcome : Outcome Token α} {last wider : Token → Prop} (h : outcome.Stalled last)
    (hLast : ∀ t, last t → wider t) : outcome.Stalled wider := by
  cases outcome with
  | accepted value rest =>
    obtain ⟨t, ht, hKind⟩ := h
    exact ⟨t, ht, hLast t hKind⟩
  | declined mismatch | refused mismatch => exact h

section

variable {reader : Reader Token α} {next : α → Reader Token β} {tokens : List Token} {kept last : Token → Prop}

theorem Grammar.Outcome.Ended.bind (h : (reader tokens).Ended) (hNext : ∀ a, (next a []).Ended) :
    ((reader >>= next) tokens).Ended := by
  simp only [Bind.bind]
  cases hOutcome : reader tokens with
  | accepted value rest =>
    rw [hOutcome] at h
    obtain rfl : rest = [] := h
    exact hNext value
  | declined mismatch | refused mismatch =>
    rw [hOutcome] at h
    exact h

theorem Grammar.Outcome.Stalled.bind (h : (reader tokens).Stalled kept)
    (hNext : ∀ a rest, (∃ t ∈ rest.head?, kept t) → (next a rest).Stalled last) :
    ((reader >>= next) tokens).Stalled last := by
  simp only [Bind.bind]
  cases hOutcome : reader tokens with
  | accepted value rest =>
    rw [hOutcome] at h
    exact hNext value rest h
  | declined mismatch | refused mismatch =>
    rw [hOutcome] at h
    exact h

/-- A reader that only goes wrong when it stalls. -/
theorem Grammar.Outcome.Stalled.bind_none (h : (reader tokens).Stalled noToken) :
    ((reader >>= next) tokens).Stalled last :=
  h.bind fun _ _ hNone => (not_head_noToken hNone).elim

theorem Grammar.Outcome.Declined.bind (h : (reader tokens).Declined) : ((reader >>= next) tokens).Declined := by
  obtain ⟨mismatch, hDeclined⟩ := declined_iff.mp h
  exact declined_iff.mpr ⟨mismatch, bind_eq_of_declined hDeclined⟩

theorem not_declined_bind (h : ¬ (reader tokens).Declined) (hNext : ∀ a, Firm (next a)) :
    ¬ ((reader >>= next) tokens).Declined := by
  simp only [Bind.bind]
  cases hOutcome : reader tokens with
  | accepted value rest => exact hNext value rest
  | declined mismatch | refused mismatch =>
    rw [hOutcome] at h
    exact h

theorem Grammar.Reader.Firm.bind (h : Firm reader) (hNext : ∀ a, Firm (next a)) : Firm (reader >>= next) :=
  fun tokens => not_declined_bind (h tokens) hNext

theorem declined_orElse {second : Reader Token α} (h : (reader tokens).Declined) :
    (reader <|> second) tokens = second tokens := by
  obtain ⟨mismatch, hDeclined⟩ := declined_iff.mp h
  exact orElse_eq_of_declined hDeclined

theorem not_declined_orElse {second : Reader Token α} (h : ¬ (reader tokens).Declined) :
    (reader <|> second) tokens = reader tokens := by
  simp only [HOrElse.hOrElse, OrElse.orElse, orElse]
  cases hOutcome : reader tokens with
  | declined mismatch =>
    rw [hOutcome] at h
    exact absurd trivial h
  | accepted value rest | refused mismatch => rfl

theorem declined_of_declines {first : Token → Prop} (h : Declines reader first) (hClear : Clear first tokens) :
    (reader tokens).Declined :=
  declined_iff.mpr (h tokens hClear)

/-- Where all tokens are taken the reader has a value for them or refuses. -/
theorem accepted_or_refused_of_ended {phrase : Phrase α} (hReads : Reads reader phrase kept)
    (h : (reader tokens).Ended) (hKeeps : ¬ (reader tokens).Declined) :
    (∃ value, phrase tokens value ∧ reader tokens = .accepted value []) ∨
      ∃ mismatch, reader tokens = .refused mismatch ∧ mismatch.RanOut := by
  cases hOutcome : reader tokens with
  | accepted value rest =>
    rw [hOutcome] at h
    obtain rfl : rest = [] := h
    obtain ⟨used, hUsed, hPhrase⟩ := hReads.sound hOutcome
    rw [List.append_nil] at hUsed
    exact .inl ⟨value, hUsed ▸ hPhrase, rfl⟩
  | declined mismatch =>
    rw [hOutcome] at hKeeps
    exact absurd trivial hKeeps
  | refused mismatch =>
    rw [hOutcome] at h
    exact .inr ⟨mismatch, rfl, h⟩

theorem ended_commit : (commit reader tokens).Ended ↔ (reader tokens).Ended := by
  unfold commit
  cases hOutcome : reader tokens <;> simp only [Ended]

theorem stalled_commit : (commit reader tokens).Stalled last ↔ (reader tokens).Stalled last := by
  unfold commit
  cases hOutcome : reader tokens <;> simp only [Stalled]

theorem ranOut_mark {expected : Expected} {mismatch : Mismatch Token} :
    (expecting.mark expected mismatch).RanOut ↔ mismatch.RanOut := by
  obtain ⟨complaint, rest⟩ := mismatch
  cases complaint <;> simp [expecting.mark, Mismatch.RanOut]

theorem misplaced_mark {expected : Expected} {mismatch : Mismatch Token} :
    (expecting.mark expected mismatch).Misplaced ↔ mismatch.Misplaced := by
  obtain ⟨complaint, rest⟩ := mismatch
  cases complaint <;> simp [expecting.mark, Mismatch.Misplaced]

theorem ended_expecting {expected : Expected} : (expecting expected reader tokens).Ended ↔ (reader tokens).Ended := by
  unfold expecting
  cases hOutcome : reader tokens <;> simp only [Ended, ranOut_mark]

theorem stalled_expecting {expected : Expected} :
    (expecting expected reader tokens).Stalled last ↔ (reader tokens).Stalled last := by
  unfold expecting
  cases hOutcome : reader tokens <;> simp only [Stalled, misplaced_mark]

theorem declined_expecting {expected : Expected} :
    (expecting expected reader tokens).Declined ↔ (reader tokens).Declined := by
  unfold expecting
  cases hOutcome : reader tokens <;> simp only [Declined]

end

theorem Grammar.Reader.firm_pure (value : α) : Firm (pure value : Reader Token α) :=
  fun _ h => h

theorem Grammar.Reader.firm_commit (reader : Reader Token α) : Firm (commit reader) := by
  intro tokens hDeclined
  unfold commit at hDeclined
  cases hOutcome : reader tokens <;> simp [hOutcome, Declined] at hDeclined

theorem Grammar.Reader.firm_many (reader : Reader Token α) : Firm (many reader) := by
  intro tokens
  fun_induction many reader tokens with
  | case1 | case3 | case4 | case5 | case6 => exact id
  | case2 tokens value rest hReader hShorter mismatch hMany ih =>
    rw [hMany] at ih
    exact ih

theorem Grammar.Reader.Firm.expecting {reader : Reader Token α} (h : Firm reader) (expected : Expected) :
    Firm (Reader.expecting expected reader) :=
  fun tokens hDeclined => h tokens (declined_expecting.mp hDeclined)

theorem Grammar.Reader.Firm.map {reader : Reader Token α} (h : Firm reader) (f : α → β) : Firm (f <$> reader) :=
  h.bind fun value => firm_pure (f value)

/-! ## One after another -/

namespace Truncated

variable {reader : Reader Token α} {phrase : Phrase α} {next : α → Reader Token β} {others : α → Phrase β}
  {stall : Phrase Unit} {stallNext : α → Phrase Unit} {greedy kept last wider : Token → Prop}

theorem mono (h : Truncated reader phrase stall last) (hLast : ∀ t, last t → wider t) :
    Truncated reader phrase stall wider where
  empty := h.empty
  ends := h.ends
  stalls hStall := (h.stalls hStall).mono hLast

theorem pure (value : α) (last : Token → Prop) : Truncated (Pure.pure value) (Pure.pure value) .never last where
  empty := rfl
  ends := by
    rintro front back result ⟨hNone, -⟩ -
    exact (List.append_eq_nil_iff.mp hNone).1
  stalls := False.elim

/-- The reader has to tell where the first phrase ends, also where the second one stalls; what the first leaves when it
stalls stops the second. -/
theorem bind (h : Truncated reader phrase stall kept) (hReads : Reads reader phrase greedy)
    (hNext : ∀ a, Truncated (next a) (others a) (stallNext a) last)
    (hSeam : ∀ a back b, others a back b → Clear greedy back)
    (hStallSeam : ∀ a back, stallNext a back () → Clear greedy back)
    (hKept : ∀ a rest, (∃ t ∈ rest.head?, kept t) → (next a rest).Stalled last) :
    Truncated (reader >>= next) (phrase >>= others) (stall <|> phrase >>= stallNext) last where
  empty := h.empty.bind fun a => (hNext a).empty
  ends := by
    rintro front back result ⟨first, second, a, hTokens, hFirst, hSecond⟩ hGoesOn
    rcases List.append_eq_append_iff.mp hTokens with ⟨between, rfl, rfl⟩ | ⟨between, rfl, rfl⟩
    · exact (h.ends hFirst fun hStall => hGoesOn (.inl hStall)).bind fun a => (hNext a).empty
    · rw [bind_eq_of_accepted (hReads.complete hFirst (hSeam a _ _ hSecond).of_append)]
      exact (hNext a).ends hSecond fun hStall => hGoesOn (.inr ⟨first, between, a, rfl, hFirst, hStall⟩)
  stalls := by
    rintro front (hStall | ⟨first, between, a, rfl, hFirst, hStall⟩)
    · exact (h.stalls hStall).bind hKept
    · rw [bind_eq_of_accepted (hReads.complete hFirst (hStallSeam a between hStall))]
      exact (hNext a).stalls hStall

/-- The first phrase ends by itself. -/
theorem bind_free (h : Truncated reader phrase .never noToken) (hReads : Reads reader phrase noToken)
    (hNext : ∀ a, Truncated (next a) (others a) (stallNext a) last) :
    Truncated (reader >>= next) (phrase >>= others) (phrase >>= stallNext) last := by
  have hBind := h.bind hReads hNext (fun _ _ _ _ => clear_noToken _) (fun _ _ _ => clear_noToken _)
    fun _ _ hNone => (not_head_noToken hNone).elim
  rwa [Phrase.never_or] at hBind

theorem any (h : Truncated reader phrase .never last) : Truncated reader phrase .never wider where
  empty := h.empty
  ends := h.ends
  stalls := False.elim

/-- Neither phrase stalls. -/
theorem bind_whole (h : Truncated reader phrase .never noToken) (hReads : Reads reader phrase greedy)
    (hNext : ∀ a, Truncated (next a) (others a) .never last)
    (hSeam : ∀ a back b, others a back b → Clear greedy back) :
    Truncated (reader >>= next) (phrase >>= others) .never last := by
  have hBind := h.bind hReads hNext hSeam (fun _ _ => False.elim) fun _ _ hNone => (not_head_noToken hNone).elim
  rwa [Phrase.bind_never, Phrase.never_or] at hBind

theorem free_whole (h : Truncated reader phrase .never noToken) (hReads : Reads reader phrase noToken)
    (hNext : ∀ a, Truncated (next a) (others a) .never last) :
    Truncated (reader >>= next) (phrase >>= others) .never last :=
  h.bind_whole hReads hNext fun _ _ _ _ => clear_noToken _

theorem map (h : Truncated reader phrase stall last) (f : α → β) :
    Truncated (f <$> reader) (f <$> phrase) stall last where
  empty := h.empty.bind fun _ => rfl
  ends := by
    intro front back result hPhrase hGoesOn
    obtain ⟨value, hValue, -⟩ := Phrase.map_iff.mp hPhrase
    exact (h.ends hValue hGoesOn).bind fun _ => rfl
  stalls hStall := (h.stalls hStall).bind fun _ _ hLast => hLast

theorem commit (h : Truncated reader phrase stall last) : Truncated (Reader.commit reader) phrase stall last where
  empty := ended_commit.mpr h.empty
  ends hPhrase hGoesOn := ended_commit.mpr (h.ends hPhrase hGoesOn)
  stalls hStall := stalled_commit.mpr (h.stalls hStall)

theorem expecting (h : Truncated reader phrase stall last) (expected : Expected) :
    Truncated (Reader.expecting expected reader) phrase stall last where
  empty := ended_expecting.mpr h.empty
  ends hPhrase hGoesOn := ended_expecting.mpr (h.ends hPhrase hGoesOn)
  stalls hStall := stalled_expecting.mpr (h.stalls hStall)

/-- A value that is wrong shows only at the end of the phrase. -/
theorem satisfying (h : Truncated reader phrase .never noToken) (hReads : Reads reader phrase noToken) {test : α → Bool}
    {condition : α → Prop} (hTest : ∀ value, test value = true ↔ condition value) :
    Truncated (Reader.satisfying test reader) (Phrase.satisfying condition phrase) .never noToken where
  empty := by
    have hEmpty := h.empty
    unfold Reader.satisfying
    cases hOutcome : reader [] with
    | accepted value rest =>
      rw [hOutcome] at hEmpty
      obtain rfl : rest = [] := hEmpty
      dsimp only
      split
      · rfl
      · exact ⟨rfl, _, rfl⟩
    | declined mismatch | refused mismatch =>
      rw [hOutcome] at hEmpty
      exact hEmpty
  ends := by
    rintro front back value ⟨hPhrase, hCondition⟩ hGoesOn
    have hEnds := h.ends hPhrase hGoesOn
    unfold Reader.satisfying
    cases hOutcome : reader front with
    | accepted found rest =>
      rw [hOutcome] at hEnds
      obtain rfl : rest = [] := hEnds
      obtain ⟨used, rfl, hFound⟩ := hReads.sound hOutcome
      rw [List.append_nil] at hPhrase
      -- the whole phrase and its beginning are read from the same tokens
      have hPart := hReads.complete hFound (clear_noToken back)
      have hWhole := hReads.complete hPhrase (clear_noToken [])
      rw [List.append_nil, hPart] at hWhole
      obtain ⟨rfl, -⟩ := Outcome.accepted.inj hWhole
      simp only [(hTest found).mpr hCondition, if_true]
      rfl
    | declined mismatch | refused mismatch =>
      rw [hOutcome] at hEnds
      exact hEnds
  stalls := False.elim

end Truncated

/-! ## Choices and repetitions -/

namespace TruncatedItem

variable {reader second : Reader Token α} {phrase other : Phrase α} {next : α → Reader Token β} {others : α → Phrase β}
  {stall stallOther : Phrase Unit} {stallNext : α → Phrase Unit} {first first' kept last last' wider : Token → Prop}

theorem token {value? : Token → Option α} {expected : Expected}
    (h : Item (Reader.token expected value?) (Phrase.token value?) first noToken) (last : Token → Prop) :
    TruncatedItem (Reader.token expected value?) (Phrase.token value?) first .never last where
  begins := h.begins
  declines := h.declines
  empty := ⟨rfl, _, rfl⟩
  ends := by
    rintro front back result ⟨t, hTokens, hValue⟩ hSome -
    obtain ⟨u, others, rfl⟩ := List.exists_cons_of_ne_nil hSome
    obtain ⟨rfl, hNone⟩ := List.cons.inj hTokens
    obtain ⟨rfl, -⟩ := List.append_eq_nil_iff.mp hNone
    simp [Reader.token, hValue, Ended, Declined]
  stalls := False.elim

theorem decline (expected : Expected) (first last : Token → Prop) :
    TruncatedItem (Reader.expecting expected (Reader.decline : Reader Token α)) .never first .never last where
  begins _ _ hNever := hNever.elim
  declines _ _ := ⟨_, rfl⟩
  empty := ⟨rfl, _, rfl⟩
  ends hNever := hNever.elim
  stalls := False.elim

theorem declined_nil (h : TruncatedItem reader phrase first stall last) : (reader []).Declined :=
  declined_of_declines h.declines (by simp [Clear])

/-- The beginning of a phrase is a phrase itself or is refused at its end. -/
theorem accepted_or_refused {greedy : Token → Prop} (h : TruncatedItem reader phrase first stall last)
    (hReads : Reads reader phrase greedy) {front back : List Token} {value : α} (hPhrase : phrase (front ++ back) value)
    (hSome : front ≠ []) (hGoesOn : ¬ stall front ()) :
    (∃ found, phrase front found ∧ reader front = .accepted found []) ∨
      ∃ mismatch, reader front = .refused mismatch ∧ mismatch.RanOut := by
  obtain ⟨hEnds, hKeeps⟩ := h.ends hPhrase hSome hGoesOn
  exact accepted_or_refused_of_ended hReads hEnds hKeeps

/-- A reader that never stalls. -/
theorem whole (h : TruncatedItem reader phrase first .never last) : Truncated reader phrase .never wider where
  empty := h.empty
  ends {front back value} hPhrase hGoesOn := by
    by_cases hSome : front = []
    · exact hSome ▸ h.empty
    · exact (h.ends hPhrase hSome hGoesOn).1
  stalls := False.elim

/-- What comes next is committed to. -/
theorem bind (h : TruncatedItem reader phrase first stall noToken) (hReads : Reads reader phrase noToken)
    (hNext : ∀ a, Truncated (next a) (others a) (stallNext a) last) (hFirm : ∀ a, Firm (next a)) :
    TruncatedItem (reader >>= next) (phrase >>= others) first (stall <|> phrase >>= stallNext) last where
  begins := h.begins.bind others
  declines := h.declines.bind next
  empty := h.empty.bind fun a => (hNext a).empty
  ends := by
    rintro front back result ⟨begin, second, a, hTokens, hFirst, hSecond⟩ hSome hGoesOn
    rcases List.append_eq_append_iff.mp hTokens with ⟨between, rfl, rfl⟩ | ⟨between, rfl, rfl⟩
    · obtain ⟨hEnds, hKeeps⟩ := h.ends hFirst hSome fun hStall => hGoesOn (.inl hStall)
      exact ⟨hEnds.bind fun a => (hNext a).empty, not_declined_bind hKeeps hFirm⟩
    · rw [bind_eq_of_accepted (hReads.complete hFirst (clear_noToken between))]
      refine ⟨(hNext a).ends hSecond fun hStall => hGoesOn (.inr ⟨begin, between, a, rfl, hFirst, hStall⟩), hFirm a _⟩
  stalls := by
    rintro front (hStall | ⟨begin, between, a, rfl, hFirst, hStall⟩)
    · obtain ⟨hBegins, hDeclined | hStalled⟩ := h.stalls hStall
      · exact ⟨hBegins, .inl hDeclined.bind⟩
      · exact ⟨hBegins, .inr hStalled.bind_none⟩
    · obtain ⟨t, tail, rfl, hKind⟩ := h.begins begin a hFirst
      refine ⟨⟨t, rfl, hKind⟩, .inr ?_⟩
      rw [bind_eq_of_accepted (hReads.complete hFirst (clear_noToken between))]
      exact (hNext a).stalls hStall

theorem bind_whole (h : TruncatedItem reader phrase first .never noToken) (hReads : Reads reader phrase noToken)
    (hNext : ∀ a, Truncated (next a) (others a) .never last) (hFirm : ∀ a, Firm (next a)) :
    TruncatedItem (reader >>= next) (phrase >>= others) first .never last := by
  have hBind := h.bind hReads hNext hFirm
  rwa [Phrase.bind_never, Phrase.never_or] at hBind

/-- What comes next is not committed to before its first token. -/
theorem lead {firstNext : α → Token → Prop} (h : TruncatedItem reader phrase first stall noToken)
    (hReads : Reads reader phrase noToken)
    (hNext : ∀ a, TruncatedItem (next a) (others a) (firstNext a) (stallNext a) last) :
    TruncatedItem (reader >>= next) (phrase >>= others) first
      (stall <|> phrase >>= fun a => pure () <|> stallNext a) last where
  begins := h.begins.bind others
  declines := h.declines.bind next
  empty := h.empty.bind fun a => (hNext a).empty
  ends := by
    rintro front back result ⟨begin, second, a, hTokens, hFirst, hSecond⟩ hSome hGoesOn
    rcases List.append_eq_append_iff.mp hTokens with ⟨between, rfl, rfl⟩ | ⟨between, rfl, rfl⟩
    · rcases h.accepted_or_refused hReads hFirst hSome fun hStall => hGoesOn (.inl hStall) with
        ⟨value, hWhole, -⟩ | ⟨mismatch, hRefused, hEnd⟩
      · -- the first phrase is whole, and that is a stall
        exact absurd (.inr ⟨front, [], value, (List.append_nil front).symm, hWhole, .inl ⟨rfl, rfl⟩⟩) hGoesOn
      · simp only [Bind.bind, hRefused]
        exact ⟨hEnd, id⟩
    · have hBetween : between ≠ [] := by
        rintro rfl
        exact hGoesOn (.inr ⟨begin, [], a, rfl, hFirst, .inl ⟨rfl, rfl⟩⟩)
      rw [bind_eq_of_accepted (hReads.complete hFirst (clear_noToken between))]
      exact (hNext a).ends hSecond hBetween fun hStall => hGoesOn (.inr ⟨begin, between, a, rfl, hFirst, .inr hStall⟩)
  stalls := by
    rintro front (hStall | ⟨begin, between, a, rfl, hFirst, hStall⟩)
    · obtain ⟨hBegins, hDeclined | hStalled⟩ := h.stalls hStall
      · exact ⟨hBegins, .inl hDeclined.bind⟩
      · exact ⟨hBegins, .inr hStalled.bind_none⟩
    · obtain ⟨t, tail, rfl, hKind⟩ := h.begins begin a hFirst
      refine ⟨⟨t, rfl, hKind⟩, ?_⟩
      rw [bind_eq_of_accepted (hReads.complete hFirst (clear_noToken between))]
      rcases hStall with ⟨rfl, -⟩ | hStall
      · exact .inl (hNext a).declined_nil
      · exact ((hNext a).stalls hStall).2

theorem map (h : TruncatedItem reader phrase first stall last) (f : α → β) :
    TruncatedItem (f <$> reader) (f <$> phrase) first stall last where
  begins := h.begins.map f
  declines := h.declines.map f
  empty := h.empty.bind fun _ => rfl
  ends := by
    intro front back result hPhrase hSome hGoesOn
    obtain ⟨value, hValue, -⟩ := Phrase.map_iff.mp hPhrase
    obtain ⟨hEnds, hKeeps⟩ := h.ends hValue hSome hGoesOn
    exact ⟨hEnds.bind fun _ => rfl, not_declined_bind hKeeps fun a => firm_pure (f a)⟩
  stalls hStall := by
    obtain ⟨hBegins, hDeclined | hStalled⟩ := h.stalls hStall
    · exact ⟨hBegins, .inl hDeclined.bind⟩
    · exact ⟨hBegins, .inr (hStalled.bind fun _ _ hLast => hLast)⟩

theorem expecting (h : TruncatedItem reader phrase first stall last) (expected : Expected) :
    TruncatedItem (Reader.expecting expected reader) phrase first stall last where
  begins := h.begins
  declines := h.declines.expecting expected
  empty := ended_expecting.mpr h.empty
  ends hPhrase hSome hGoesOn := by
    rw [ended_expecting, declined_expecting]
    exact h.ends hPhrase hSome hGoesOn
  stalls hStall := by
    rw [declined_expecting, stalled_expecting]
    exact h.stalls hStall

theorem mono (h : TruncatedItem reader phrase first stall last) (hFirst : ∀ t, first t → first' t)
    (hLast : ∀ t, last t → wider t) : TruncatedItem reader phrase first' stall wider where
  begins := h.begins.mono hFirst
  declines := h.declines.mono hFirst
  empty := h.empty
  ends := h.ends
  stalls hStall := by
    obtain ⟨⟨t, ht, hKind⟩, hOutcome⟩ := h.stalls hStall
    exact ⟨⟨t, ht, hFirst t hKind⟩, hOutcome.imp id fun hStalled => hStalled.mono hLast⟩

/-- Alternatives that may start alike, where the first one declines what is the second one's. -/
theorem orElse_of_declines (h : TruncatedItem reader phrase first stall last)
    (hOther : TruncatedItem second other first' stallOther last')
    (hEnds : ∀ {front back value}, other (front ++ back) value → front ≠ [] → ¬ stallOther front () →
      (reader front).Declined)
    (hStalls : ∀ {front}, stall front () → (second front).Declined)
    (hStallsOther : ∀ {front}, stallOther front () → (reader front).Declined) :
    TruncatedItem (reader <|> second) (phrase <|> other) (fun t => first t ∨ first' t) (stall <|> stallOther)
      (fun t => last t ∨ last' t) where
  begins := by
    rintro tokens value (hPhrase | hPhrase)
    · exact (h.begins.mono fun _ => .inl) tokens value hPhrase
    · exact (hOther.begins.mono fun _ => .inr) tokens value hPhrase
  declines := h.declines.orElse hOther.declines
  empty := by
    rw [declined_orElse h.declined_nil]
    exact hOther.empty
  ends := by
    rintro front back value (hPhrase | hPhrase) hSome hGoesOn
    · have hWhole := h.ends hPhrase hSome fun hStall => hGoesOn (.inl hStall)
      rw [not_declined_orElse hWhole.2]
      exact hWhole
    · rw [declined_orElse (hEnds hPhrase hSome fun hStall => hGoesOn (.inr hStall))]
      exact hOther.ends hPhrase hSome fun hStall => hGoesOn (.inr hStall)
  stalls := by
    rintro front (hStall | hStall)
    · obtain ⟨⟨t, ht, hKind⟩, hOutcome⟩ := h.stalls hStall
      refine ⟨⟨t, ht, .inl hKind⟩, ?_⟩
      by_cases hDeclined : (reader front).Declined
      · rw [declined_orElse hDeclined]
        exact .inl (hStalls hStall)
      · rw [not_declined_orElse hDeclined]
        exact .inr ((hOutcome.resolve_left hDeclined).mono fun _ => .inl)
    · obtain ⟨⟨t, ht, hKind⟩, hOutcome⟩ := hOther.stalls hStall
      refine ⟨⟨t, ht, .inr hKind⟩, ?_⟩
      rw [declined_orElse (hStallsOther hStall)]
      exact hOutcome.imp id fun hStalled => hStalled.mono fun _ => .inr

/-- Alternatives that start differently. -/
theorem orElse (h : TruncatedItem reader phrase first stall last)
    (hOther : TruncatedItem second other first' stallOther last') (hApart : ∀ t, first' t → ¬ first t) :
    TruncatedItem (reader <|> second) (phrase <|> other) (fun t => first t ∨ first' t) (stall <|> stallOther)
      (fun t => last t ∨ last' t) := by
  refine h.orElse_of_declines hOther ?_ ?_ ?_
  · rintro front back value hPhrase hSome -
    obtain ⟨t, others, hTokens, hKind⟩ := hOther.begins _ value hPhrase
    obtain ⟨u, tail, rfl⟩ := List.exists_cons_of_ne_nil hSome
    obtain ⟨rfl, -⟩ := List.cons.inj hTokens
    exact declined_of_declines h.declines (clear_cons.mpr (hApart u hKind))
  · intro front hStall
    exact declined_of_declines hOther.declines
      (clear_of_head (h.stalls hStall).1 fun t hFirst hKind => hApart t hKind hFirst)
  · intro front hStall
    exact declined_of_declines h.declines (clear_of_head (hOther.stalls hStall).1 hApart)

theorem ended_optional_nil (h : (reader []).Declined) : (Reader.optional reader []).Ended := by
  obtain ⟨mismatch, hDeclined⟩ := declined_iff.mp h
  rw [Reader.optional, hDeclined]
  rfl

theorem optional (h : TruncatedItem reader phrase first stall last) :
    Truncated (Reader.optional reader) (Phrase.optional phrase) stall (fun t => first t ∨ last t) where
  empty := ended_optional_nil h.declined_nil
  ends := by
    intro front back value hPhrase hGoesOn
    by_cases hSome : front = []
    · subst hSome
      exact ended_optional_nil h.declined_nil
    · generalize hTokens : front ++ back = tokens at hPhrase
      cases hPhrase with
      | none => exact absurd (List.append_eq_nil_iff.mp hTokens).1 hSome
      | some hPhrase =>
        subst hTokens
        obtain ⟨hEnds, hKeeps⟩ := h.ends hPhrase hSome hGoesOn
        unfold Reader.optional
        cases hOutcome : reader front with
        | declined mismatch =>
          rw [hOutcome] at hKeeps
          exact absurd trivial hKeeps
        | accepted value rest | refused mismatch =>
          rw [hOutcome] at hEnds
          exact hEnds
  stalls {front} hStall := by
    obtain ⟨⟨t, ht, hKind⟩, hOutcome⟩ := h.stalls hStall
    unfold Reader.optional
    cases hReader : reader front with
    | declined mismatch => exact ⟨t, ht, .inl hKind⟩
    | accepted value rest =>
      rw [hReader] at hOutcome
      obtain ⟨u, hu, hLast⟩ := hOutcome.resolve_left id
      exact ⟨u, hu, .inr hLast⟩
    | refused mismatch =>
      rw [hReader] at hOutcome
      exact hOutcome.resolve_left id

theorem orEmpty {reader : Reader Token (List α)} {phrase : Phrase (List α)}
    (h : TruncatedItem reader phrase first stall last) :
    Truncated (Reader.orEmpty reader) (Phrase.orEmpty phrase) stall (fun t => first t ∨ last t) :=
  h.optional.map _

theorem present (h : TruncatedItem reader phrase first stall last) :
    Truncated (Reader.present reader) (Phrase.present phrase) stall (fun t => first t ∨ last t) :=
  h.optional.map _

theorem clear_many_append (hBegins : phrase.Begins first) (hApart : ∀ t, first t → ¬ last t) {tokens rest : List Token}
    {values : List α} (hMany : Phrase.many phrase tokens values) (hRest : Clear last rest) :
    Clear last (tokens ++ rest) := by
  cases hMany with
  | nil => exact hRest
  | cons hFront hBack =>
    obtain ⟨t, others, rfl, hFirst⟩ := hBegins _ _ hFront
    exact clear_cons.mpr (hApart t hFirst)

theorem length_lt_of_begins (hBegins : phrase.Begins first) {used : List Token} {value : α}
    (hPhrase : phrase used value) (rest : List Token) : rest.length < (used ++ rest).length := by
  obtain ⟨t, others, rfl, -⟩ := hBegins used value hPhrase
  simp only [List.length_append, List.length_cons]
  omega

theorem many_of_accepted {tokens rest : List Token} {value : α} (hReader : reader tokens = .accepted value rest)
    (hShorter : rest.length < tokens.length) :
    Reader.many reader tokens = Functor.map (f := Reader Token) (value :: ·) (Reader.many reader) rest := by
  rw [Reader.many, hReader]
  simp only [dif_pos hShorter, Functor.map]
  cases Reader.many reader rest <;> rfl

theorem many_append (hItem : Item reader phrase first last) (hApart : ∀ t, first t → ¬ last t) {front back : List Token}
    {values : List α} (hMany : Phrase.many phrase front values) (hClear : Clear last back) :
    Reader.many reader (front ++ back) = Functor.map (f := Reader Token) (values ++ ·) (Reader.many reader) back := by
  induction hMany with
  | nil =>
    simp only [List.nil_append, Functor.map]
    cases Reader.many reader back <;> rfl
  | @cons begin second value values hFirst hSecond ih =>
    have hAccepted := hItem.complete hFirst (clear_many_append hItem.begins hApart hSecond hClear)
    rw [List.append_assoc, many_of_accepted hAccepted (length_lt_of_begins hItem.begins hFirst _)]
    simp only [Functor.map, ih]
    cases Reader.many reader back <;> rfl

theorem many_of_declined {tokens : List Token} (h : (reader tokens).Declined) :
    Reader.many reader tokens = .accepted [] tokens := by
  obtain ⟨mismatch, hDeclined⟩ := declined_iff.mp h
  rw [Reader.many, hDeclined]

theorem many_of_refused {tokens : List Token} {mismatch : Mismatch Token} (h : reader tokens = .refused mismatch) :
    Reader.many reader tokens = .refused mismatch := by
  rw [Reader.many, h]

section

variable (h : TruncatedItem reader phrase first stall last) (hItem : Item reader phrase first last)
  (hApart : ∀ t, first t → ¬ last t)
include h hItem hApart

theorem ended_many {tokens front back : List Token} {values : List α} (hMany : Phrase.many phrase tokens values)
    (hTokens : front ++ back = tokens) (hGoesOn : ¬ (Phrase.many phrase >>= fun _ => stall) front ()) :
    (Reader.many reader front).Ended := by
  have hNone : (Reader.many reader []).Ended := by
    rw [many_of_declined h.declined_nil]
    rfl
  induction hMany generalizing front back with
  | nil =>
    rw [(List.append_eq_nil_iff.mp hTokens).1]
    exact hNone
  | @cons begin second value values hFirst hSecond ih =>
    rcases List.append_eq_append_iff.mp hTokens with ⟨between, rfl, rfl⟩ | ⟨between, rfl, rfl⟩
    · by_cases hSome : front = []
      · rw [hSome]
        exact hNone
      · rcases h.accepted_or_refused hItem.toReads hFirst hSome fun hStall =>
          hGoesOn ⟨[], front, [], rfl, .nil, hStall⟩ with ⟨found, -, hAccepted⟩ | ⟨mismatch, hRefused, hEnd⟩
        · rw [many_of_accepted hAccepted (List.length_pos_iff.mpr hSome)]
          exact hNone.bind fun _ => rfl
        · rw [many_of_refused hRefused]
          exact hEnd
    · have hClear : Clear last (between ++ back) := by
        rw [← List.append_nil (between ++ back)]
        exact clear_many_append hItem.begins hApart hSecond (by simp [Clear])
      have hAccepted := hItem.complete hFirst hClear.of_append
      rw [many_of_accepted hAccepted (length_lt_of_begins hItem.begins hFirst between)]
      refine Ended.bind (ih rfl ?_) fun _ => rfl
      rintro ⟨whole, last, values, rfl, hWhole, hStall⟩
      exact hGoesOn ⟨_, last, value :: values, (List.append_assoc ..).symm, .cons hFirst hWhole, hStall⟩

theorem stalled_many {tokens : List Token} (hStall : stall tokens ()) :
    (Reader.many reader tokens).Stalled fun t => first t ∨ last t := by
  obtain ⟨⟨t, ht, hKind⟩, hOutcome⟩ := h.stalls hStall
  cases hReader : reader tokens with
  | declined mismatch =>
    rw [many_of_declined (declined_iff.mpr ⟨mismatch, hReader⟩)]
    exact ⟨t, ht, .inl hKind⟩
  | refused mismatch =>
    rw [hReader] at hOutcome
    rw [many_of_refused hReader]
    exact hOutcome.resolve_left id
  | accepted value rest =>
    rw [hReader] at hOutcome
    obtain ⟨u, hu, hLast⟩ := hOutcome.resolve_left id
    obtain ⟨used, rfl, hPhrase⟩ := hItem.sound hReader
    have hClear : Clear first rest := clear_of_head ⟨u, hu, hLast⟩ fun t hLast hFirst => hApart t hFirst hLast
    rw [many_of_accepted hReader (length_lt_of_begins hItem.begins hPhrase rest)]
    simp only [Functor.map, many_of_declined (declined_of_declines hItem.declines hClear)]
    exact ⟨u, hu, .inr hLast⟩

/-- Whole items are taken before one that breaks off. -/
theorem many : Truncated (Reader.many reader) (Phrase.many phrase) (Phrase.many phrase >>= fun _ => stall)
    (fun t => first t ∨ last t) where
  empty := by
    rw [many_of_declined h.declined_nil]
    rfl
  ends hMany hGoesOn := ended_many h hItem hApart hMany rfl hGoesOn
  stalls := by
    rintro _ ⟨front, between, values, rfl, hMany, hStall⟩
    rw [many_append hItem hApart hMany (clear_of_head (h.stalls hStall).1 hApart)]
    exact (stalled_many h hItem hApart hStall).bind fun _ _ hRest => hRest

end

end TruncatedItem

end DomainAtlas
