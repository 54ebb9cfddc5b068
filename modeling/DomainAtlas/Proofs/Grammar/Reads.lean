import DomainAtlas.Proofs.Grammar.Phrase

/-! # Readers of phrases

A reader reads a phrase when it accepts exactly that phrase's token lists, with their values. A greedy
reader takes more where it can; `last` is the class of tokens that must not follow for it to stop at the
end of the phrase. `Item` adds what a choice or a repetition needs to know: each phrase starts with a
token of the class `first`, and before any other token the reader declines and never refuses.
-/
set_option autoImplicit false

namespace DomainAtlas

open Grammar

variable {α β : Type}

def noToken : Token → Prop := fun _ => False

theorem clear_noToken (rest : List Token) : Clear noToken rest :=
  fun _ _ h => h

structure Reads (reader : Reader Token α) (phrase : Phrase α) (last : Token → Prop) : Prop where
  sound : ∀ {tokens value rest}, reader tokens = .accepted value rest →
    ∃ used, tokens = used ++ rest ∧ phrase used value
  complete : ∀ {used value rest}, phrase used value → Clear last rest →
    reader (used ++ rest) = .accepted value rest

def Declines (reader : Reader Token α) (first : Token → Prop) : Prop :=
  ∀ tokens, Clear first tokens → ∃ mismatch, reader tokens = .declined mismatch

structure Item (reader : Reader Token α) (phrase : Phrase α) (first last : Token → Prop) : Prop extends
    Reads reader phrase last where
  begins : phrase.Begins first
  declines : Declines reader first

namespace Grammar.Reader

theorem bind_eq_of_accepted {reader : Reader Token α} {next : α → Reader Token β} {tokens rest : List Token}
    {value : α} (h : reader tokens = .accepted value rest) : (reader >>= next) tokens = next value rest := by
  simp only [bind, h]

theorem bind_eq_of_declined {reader : Reader Token α} {next : α → Reader Token β} {tokens : List Token}
    {mismatch : Mismatch Token} (h : reader tokens = .declined mismatch) :
    (reader >>= next) tokens = .declined mismatch := by
  simp only [bind, h]

theorem bind_eq_accepted {reader : Reader Token α} {next : α → Reader Token β} {tokens rest : List Token} {result : β}
    (h : (reader >>= next) tokens = .accepted result rest) :
    ∃ value between, reader tokens = .accepted value between ∧ next value between = .accepted result rest := by
  simp only [bind] at h
  split at h
  · rename_i value between hReader
    exact ⟨value, between, hReader, h⟩
  · cases h
  · cases h

theorem orElse_eq_of_accepted {first second : Reader Token α} {tokens rest : List Token} {value : α}
    (h : first tokens = .accepted value rest) : (first <|> second) tokens = .accepted value rest := by
  simp only [HOrElse.hOrElse, OrElse.orElse, orElse, h]

theorem orElse_eq_of_declined {first second : Reader Token α} {tokens : List Token} {mismatch : Mismatch Token}
    (h : first tokens = .declined mismatch) : (first <|> second) tokens = second tokens := by
  simp only [HOrElse.hOrElse, OrElse.orElse, orElse, h]

theorem orElse_eq_accepted {first second : Reader Token α} {tokens rest : List Token} {value : α}
    (h : (first <|> second) tokens = .accepted value rest) :
    first tokens = .accepted value rest ∨ second tokens = .accepted value rest := by
  simp only [HOrElse.hOrElse, OrElse.orElse, orElse] at h
  split at h
  · exact Or.inr h
  · exact Or.inl h

theorem token_eq_accepted_iff {expected : Expected} {value? : Token → Option α} {tokens rest : List Token}
    {value : α} : token expected value? tokens = .accepted value rest ↔
      ∃ t, tokens = t :: rest ∧ value? t = some value := by
  cases tokens with
  | nil => simp [token]
  | cons t others =>
    constructor
    · intro h
      cases hValue : value? t with
      | none => simp [token, hValue] at h
      | some found =>
        obtain ⟨rfl, rfl⟩ : found = value ∧ others = rest := by simpa [token, hValue] using h
        exact ⟨t, rfl, hValue⟩
    · rintro ⟨_, hCons, hValue⟩
      cases hCons
      simp [token, hValue]

theorem commit_eq_accepted_iff {reader : Reader Token α} {tokens rest : List Token} {value : α} :
    commit reader tokens = .accepted value rest ↔ reader tokens = .accepted value rest := by
  unfold commit
  split <;> simp_all

theorem expecting_eq_accepted_iff {reader : Reader Token α} {expected : Expected} {tokens rest : List Token}
    {value : α} : expecting expected reader tokens = .accepted value rest ↔
      reader tokens = .accepted value rest := by
  unfold expecting
  split <;> simp_all

theorem expecting_eq_declined {reader : Reader Token α} {tokens : List Token} {mismatch : Mismatch Token}
    (h : reader tokens = .declined mismatch) (expected : Expected) :
    ∃ marked, expecting expected reader tokens = .declined marked := by
  unfold expecting
  rw [h]
  exact ⟨_, rfl⟩

end Grammar.Reader

open Reader

theorem Declines.mono {reader : Reader Token α} {first wider : Token → Prop} (h : Declines reader first)
    (hWider : ∀ t, first t → wider t) : Declines reader wider :=
  fun tokens hClear => h tokens (hClear.mono hWider)

theorem Declines.bind {reader : Reader Token α} {first : Token → Prop} (h : Declines reader first)
    (next : α → Reader Token β) : Declines (reader >>= next) first := by
  intro tokens hClear
  obtain ⟨mismatch, hDeclined⟩ := h tokens hClear
  exact ⟨mismatch, bind_eq_of_declined hDeclined⟩

theorem Declines.map {reader : Reader Token α} {first : Token → Prop} (h : Declines reader first) (f : α → β) :
    Declines (f <$> reader) first := h.bind _

theorem Declines.expecting {reader : Reader Token α} {first : Token → Prop} (h : Declines reader first)
    (expected : Expected) : Declines (Grammar.Reader.expecting expected reader) first := by
  intro tokens hClear
  obtain ⟨mismatch, hDeclined⟩ := h tokens hClear
  exact expecting_eq_declined hDeclined expected

theorem Declines.orElse {first second : Reader Token α} {kind other : Token → Prop} (hFirst : Declines first kind)
    (hSecond : Declines second other) : Declines (first <|> second) fun t => kind t ∨ other t := by
  intro tokens hClear
  obtain ⟨mismatch, hDeclined⟩ := hFirst tokens (hClear.mono fun _ => Or.inl)
  rw [orElse_eq_of_declined hDeclined]
  exact hSecond tokens (hClear.mono fun _ => Or.inr)

namespace Reads

theorem mono {reader : Reader Token α} {phrase : Phrase α} {last wider : Token → Prop}
    (h : Reads reader phrase last) (hWider : ∀ t, last t → wider t) : Reads reader phrase wider where
  sound := h.sound
  complete hPhrase hClear := h.complete hPhrase (hClear.mono hWider)

theorem pure (value : α) (last : Token → Prop) : Reads (Pure.pure value) (Pure.pure value) last where
  sound := by
    intro tokens result rest h
    cases h
    exact ⟨[], rfl, rfl, rfl⟩
  complete := by
    rintro used result rest ⟨rfl, rfl⟩ -
    rfl

/-- What follows in the phrase must not be taken by the first reader. -/
theorem bind {reader : Reader Token α} {phrase : Phrase α} {next : α → Reader Token β} {others : α → Phrase β}
    {last last' : Token → Prop} (h : Reads reader phrase last) (hNext : ∀ a, Reads (next a) (others a) last')
    (hSeam : ∀ a used b rest, others a used b → Clear last' rest → Clear last (used ++ rest)) :
    Reads (reader >>= next) (phrase >>= others) last' where
  sound := by
    intro tokens result rest hAccepted
    obtain ⟨value, between, hReader, hRest⟩ := bind_eq_accepted hAccepted
    obtain ⟨front, rfl, hFront⟩ := h.sound hReader
    obtain ⟨back, rfl, hBack⟩ := (hNext value).sound hRest
    exact ⟨front ++ back, (List.append_assoc ..).symm, front, back, value, rfl, hFront, hBack⟩
  complete := by
    rintro used result rest ⟨front, back, value, rfl, hFront, hBack⟩ hClear
    rw [List.append_assoc, bind_eq_of_accepted (h.complete hFront (hSeam value back result rest hBack hClear))]
    exact (hNext value).complete hBack hClear

theorem bind_free {reader : Reader Token α} {phrase : Phrase α} {next : α → Reader Token β} {others : α → Phrase β}
    {last : Token → Prop} (h : Reads reader phrase noToken) (hNext : ∀ a, Reads (next a) (others a) last) :
    Reads (reader >>= next) (phrase >>= others) last :=
  h.bind hNext fun _ _ _ _ _ _ => clear_noToken _

theorem bind_begins {reader : Reader Token α} {phrase : Phrase α} {next : α → Reader Token β} {others : α → Phrase β}
    {last last' : Token → Prop} (first : Token → Prop) (h : Reads reader phrase last)
    (hNext : ∀ a, Reads (next a) (others a) last') (hBegins : ∀ a, (others a).Begins first)
    (hApart : ∀ t, first t → ¬ last t) : Reads (reader >>= next) (phrase >>= others) last' := by
  apply h.bind hNext
  intro a used b rest hOthers _
  obtain ⟨t, tail, rfl, hFirst⟩ := hBegins a used b hOthers
  exact clear_cons.mpr (hApart t hFirst)

theorem bind_mayBegin {reader : Reader Token α} {phrase : Phrase α} {next : α → Reader Token β} {others : α → Phrase β}
    {last last' first : Token → Prop} (h : Reads reader phrase last)
    (hNext : ∀ a, Reads (next a) (others a) last') (hBegins : ∀ a, (others a).MayBegin first)
    (hApart : ∀ t, first t → ¬ last t) (hLast : ∀ t, last t → last' t) :
    Reads (reader >>= next) (phrase >>= others) last' := by
  apply h.bind hNext
  intro a used b rest hOthers hClear
  cases used with
  | nil => exact hClear.mono hLast
  | cons t tail => exact clear_cons.mpr (hApart t (hBegins a _ b hOthers t rfl))

theorem map {reader : Reader Token α} {phrase : Phrase α} {last : Token → Prop} (h : Reads reader phrase last)
    (f : α → β) : Reads (f <$> reader) (f <$> phrase) last :=
  h.bind (fun a => Reads.pure (f a) last) fun _ _ _ _ hPure hClear => by
    obtain ⟨rfl, -⟩ := hPure
    exact hClear

theorem commit {reader : Reader Token α} {phrase : Phrase α} {last : Token → Prop} (h : Reads reader phrase last) :
    Reads (Grammar.Reader.commit reader) phrase last where
  sound hAccepted := h.sound (commit_eq_accepted_iff.mp hAccepted)
  complete hPhrase hClear := commit_eq_accepted_iff.mpr (h.complete hPhrase hClear)

theorem expecting {reader : Reader Token α} {phrase : Phrase α} {last : Token → Prop} (h : Reads reader phrase last)
    (expected : Expected) : Reads (Grammar.Reader.expecting expected reader) phrase last where
  sound hAccepted := h.sound (expecting_eq_accepted_iff.mp hAccepted)
  complete hPhrase hClear := expecting_eq_accepted_iff.mpr (h.complete hPhrase hClear)

/-- The first reader gives way to the second on the phrases of the second. -/
theorem orElse {reader second : Reader Token α} {phrase other : Phrase α} {last : Token → Prop}
    (h : Reads reader phrase last) (hOther : Reads second other last)
    (hDeclines : ∀ used value rest, other used value → ∃ mismatch, reader (used ++ rest) = .declined mismatch) :
    Reads (reader <|> second) (phrase <|> other) last where
  sound := by
    intro tokens value rest hAccepted
    rcases orElse_eq_accepted hAccepted with hAccepted | hAccepted
    · obtain ⟨used, hUsed, hPhrase⟩ := h.sound hAccepted
      exact ⟨used, hUsed, Or.inl hPhrase⟩
    · obtain ⟨used, hUsed, hPhrase⟩ := hOther.sound hAccepted
      exact ⟨used, hUsed, Or.inr hPhrase⟩
  complete := by
    rintro used value rest (hPhrase | hPhrase) hClear
    · exact orElse_eq_of_accepted (h.complete hPhrase hClear)
    · obtain ⟨mismatch, hDeclined⟩ := hDeclines used value rest hPhrase
      rw [orElse_eq_of_declined hDeclined]
      exact hOther.complete hPhrase hClear

theorem satisfying {reader : Reader Token α} {phrase : Phrase α} {last : Token → Prop}
    (h : Reads reader phrase last) (test : α → Bool) (condition : α → Prop)
    (hTest : ∀ value, test value = true ↔ condition value) :
    Reads (Grammar.Reader.satisfying test reader) (Phrase.satisfying condition phrase) last where
  sound := by
    intro tokens value rest hAccepted
    unfold Grammar.Reader.satisfying at hAccepted
    split at hAccepted
    · rename_i found others hFound
      split at hAccepted
      · rename_i hHolds
        cases hAccepted
        obtain ⟨used, hUsed, hPhrase⟩ := h.sound hFound
        exact ⟨used, hUsed, hPhrase, (hTest value).mp hHolds⟩
      · cases hAccepted
    · rename_i hNot
      exact absurd hAccepted (hNot value rest)
  complete := by
    rintro used value rest ⟨hPhrase, hHolds⟩ hClear
    unfold Grammar.Reader.satisfying
    rw [h.complete hPhrase hClear]
    simp [(hTest value).mpr hHolds]

end Reads

namespace Item

theorem decline (expected : Expected) (first last : Token → Prop) :
    Item (Grammar.Reader.expecting expected (Grammar.Reader.decline (α := α))) Phrase.never first last where
  sound := by
    intro tokens value rest hAccepted
    cases hAccepted
  complete hNever := hNever.elim
  begins _ _ hNever := hNever.elim
  declines _ _ := ⟨_, rfl⟩

/-- A first token decides; what comes after it may be committed to. -/
theorem bind {reader : Reader Token α} {phrase : Phrase α} {next : α → Reader Token β} {others : α → Phrase β}
    {first last : Token → Prop} (h : Item reader phrase first noToken)
    (hNext : ∀ a, Reads (next a) (others a) last) : Item (reader >>= next) (phrase >>= others) first last where
  toReads := h.toReads.bind_free hNext
  begins := h.begins.bind others
  declines := h.declines.bind next

theorem map {reader : Reader Token α} {phrase : Phrase α} {first last : Token → Prop}
    (h : Item reader phrase first last) (f : α → β) : Item (f <$> reader) (f <$> phrase) first last where
  toReads := h.toReads.map f
  begins := h.begins.map f
  declines := h.declines.map f

theorem expecting {reader : Reader Token α} {phrase : Phrase α} {first last : Token → Prop}
    (h : Item reader phrase first last) (expected : Expected) :
    Item (Grammar.Reader.expecting expected reader) phrase first last where
  toReads := h.toReads.expecting expected
  begins := h.begins
  declines := h.declines.expecting expected

theorem reads_bind {reader : Reader Token α} {phrase : Phrase α} {next : α → Reader Token β} {others : α → Phrase β}
    {first last : Token → Prop} (h : Item reader phrase first noToken)
    (hNext : ∀ a, Reads (next a) (others a) last) : Reads (reader >>= next) (phrase >>= others) last :=
  h.toReads.bind_free hNext

theorem reads_map {reader : Reader Token α} {phrase : Phrase α} {first last : Token → Prop}
    (h : Item reader phrase first last) (f : α → β) : Reads (f <$> reader) (f <$> phrase) last :=
  h.toReads.map f

theorem mono {reader : Reader Token α} {phrase : Phrase α} {first wider last last' : Token → Prop}
    (h : Item reader phrase first last) (hFirst : ∀ t, first t → wider t) (hLast : ∀ t, last t → last' t) :
    Item reader phrase wider last' where
  toReads := h.toReads.mono hLast
  begins := h.begins.mono hFirst
  declines := h.declines.mono hFirst

theorem token {value? : Token → Option α} {first : Token → Prop} (expected : Expected)
    (h : ∀ t, first t ↔ (value? t).isSome) :
    Item (Grammar.Reader.token expected value?) (Phrase.token value?) first noToken where
  sound := by
    intro tokens value rest hAccepted
    obtain ⟨t, rfl, hValue⟩ := token_eq_accepted_iff.mp hAccepted
    exact ⟨[t], rfl, t, rfl, hValue⟩
  complete := by
    rintro used value rest ⟨t, rfl, hValue⟩ -
    simp [Grammar.Reader.token, hValue]
  begins := by
    apply Phrase.begins_token
    intro t value hValue
    exact (h t).mpr (by simp [hValue])
  declines := by
    intro tokens hClear
    cases tokens with
    | nil => exact ⟨_, rfl⟩
    | cons t others =>
      have hNone : value? t = none := by
        simpa [h t] using clear_cons.mp hClear
      refine ⟨⟨.unexpected [expected], t :: others⟩, ?_⟩
      simp [Grammar.Reader.token, hNone]

/-- A choice between phrases that start alike: what comes later tells the reader of the one from the other. -/
theorem orElse_of_declines {reader second : Reader Token α} {phrase other : Phrase α} {first last wider : Token → Prop}
    (h : Item reader phrase first last) (hOther : Item second other first wider) (hLast : ∀ t, last t → wider t)
    (hDeclines : ∀ used value rest, other used value → ∃ mismatch, reader (used ++ rest) = .declined mismatch) :
    Item (reader <|> second) (phrase <|> other) first wider where
  toReads := (h.toReads.mono hLast).orElse hOther.toReads hDeclines
  begins := by
    rintro tokens value (hPhrase | hPhrase)
    · exact h.begins tokens value hPhrase
    · exact hOther.begins tokens value hPhrase
  declines := (h.declines.orElse hOther.declines).mono fun _ hBoth => hBoth.elim id id

/-- Alternatives that start differently may be tried in any order. -/
theorem orElse {reader second : Reader Token α} {phrase other : Phrase α} {first first' last last' : Token → Prop}
    (h : Item reader phrase first last) (hOther : Item second other first' last')
    (hApart : ∀ t, first' t → ¬ first t) :
    Item (reader <|> second) (phrase <|> other) (fun t => first t ∨ first' t) (fun t => last t ∨ last' t) := by
  apply (h.mono (fun _ => Or.inl) fun _ => id).orElse_of_declines (hOther.mono (fun _ => Or.inr) fun _ => Or.inr)
    fun _ => Or.inl
  intro used value rest hPhrase
  obtain ⟨t, others, rfl, hFirst⟩ := hOther.begins used value hPhrase
  exact h.declines _ (clear_cons.mpr (hApart t hFirst))

theorem optional {reader : Reader Token α} {phrase : Phrase α} {first last : Token → Prop}
    (h : Item reader phrase first last) :
    Reads (Grammar.Reader.optional reader) (Phrase.optional phrase) (fun t => first t ∨ last t) where
  sound := by
    intro tokens value rest hAccepted
    unfold Grammar.Reader.optional at hAccepted
    split at hAccepted
    · rename_i found others hFound
      cases hAccepted
      obtain ⟨used, hUsed, hPhrase⟩ := h.sound hFound
      exact ⟨used, hUsed, .some hPhrase⟩
    · cases hAccepted
      exact ⟨[], rfl, .none⟩
    · cases hAccepted
  complete := by
    intro used value rest hPhrase hClear
    unfold Grammar.Reader.optional
    cases hPhrase with
    | none =>
      obtain ⟨mismatch, hDeclined⟩ := h.declines rest (hClear.mono fun _ => Or.inl)
      rw [List.nil_append, hDeclined]
    | some hPhrase => rw [h.complete hPhrase (hClear.mono fun _ => Or.inr)]

theorem present {reader : Reader Token α} {phrase : Phrase α} {first last : Token → Prop}
    (h : Item reader phrase first last) :
    Reads (Grammar.Reader.present reader) (Phrase.present phrase) (fun t => first t ∨ last t) :=
  h.optional.map _

theorem orEmpty {reader : Reader Token (List α)} {phrase : Phrase (List α)} {first last : Token → Prop}
    (h : Item reader phrase first last) :
    Reads (Grammar.Reader.orEmpty reader) (Phrase.orEmpty phrase) (fun t => first t ∨ last t) :=
  h.optional.map _

/-- The items of a repetition have to be told from what may follow one of them. -/
theorem many {reader : Reader Token α} {phrase : Phrase α} {first last : Token → Prop}
    (h : Item reader phrase first last) (hApart : ∀ t, first t → ¬ last t) :
    Reads (Grammar.Reader.many reader) (Phrase.many phrase) (fun t => first t ∨ last t) where
  sound := by
    intro tokens
    fun_induction Grammar.Reader.many reader tokens with
    | case1 tokens value rest hReader hShorter values last' hMany ih =>
      intro result end' hAccepted
      cases hAccepted
      obtain ⟨front, rfl, hFront⟩ := h.sound hReader
      obtain ⟨back, rfl, hBack⟩ := ih hMany
      exact ⟨front ++ back, (List.append_assoc ..).symm, .cons hFront hBack⟩
    | case2 | case3 | case6 =>
      intro result end' hAccepted
      cases hAccepted
    | case4 | case5 =>
      intro result end' hAccepted
      cases hAccepted
      exact ⟨[], rfl, .nil⟩
  complete := by
    intro used values rest hPhrase hClear
    induction hPhrase with
    | nil =>
      obtain ⟨mismatch, hDeclined⟩ := h.declines rest (hClear.mono fun _ => Or.inl)
      rw [List.nil_append, Grammar.Reader.many, hDeclined]
    | @cons front back value values hFront hBack ih =>
      have hSeam : Clear last (back ++ rest) := by
        cases hBack with
        | nil => exact hClear.mono fun _ => Or.inr
        | cons hNext _ =>
          obtain ⟨t, others, rfl, hFirst⟩ := h.begins _ _ hNext
          exact clear_cons.mpr (hApart t hFirst)
      obtain ⟨t, others, hFrontEq, -⟩ := h.begins front value hFront
      have hShorter : (back ++ rest).length < (front ++ back ++ rest).length := by
        simp only [hFrontEq, List.length_append, List.length_cons]
        omega
      rw [Grammar.Reader.many, List.append_assoc, h.complete hFront hSeam]
      simp only [ih]
      rw [dif_pos (by simpa using hShorter)]

theorem separated {separator : Reader Token Unit} {mark : Phrase Unit} {reader : Reader Token α} {phrase : Phrase α}
    {first last kind : Token → Prop} (hMark : Item separator mark kind noToken)
    (h : Item reader phrase first last) (hApart : ∀ t, kind t → ¬ last t) :
    Item (Grammar.Reader.separated separator reader) (Phrase.separated mark phrase) first
      (fun t => kind t ∨ last t) where
  toReads := by
    have hOthers := (hMark.bind fun _ => h.toReads).many hApart
    apply h.toReads.bind (fun _ => hOthers.map _)
    intro a used b rest hMany hClear
    obtain ⟨values, hMany, -⟩ := Phrase.map_iff.mp hMany
    cases hMany with
    | nil => exact hClear.mono fun _ => Or.inr
    | cons hNext _ =>
      obtain ⟨t, others, rfl, hKind⟩ := (hMark.begins.bind _) _ _ hNext
      exact clear_cons.mpr (hApart t hKind)
  begins := h.begins.bind _
  declines := h.declines.bind _

end Item

end DomainAtlas
