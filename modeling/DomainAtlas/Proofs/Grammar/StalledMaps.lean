import DomainAtlas.Proofs.Grammar.Stalls

/-! # Where readers of context maps stall

A relationship is decided by its arrow or by the keyword between its contexts. Up to there its reader gives all of it
back, and once more a bracket after the arrow.
-/
set_option autoImplicit false

namespace DomainAtlas

open Grammar Grammar.Reader Grammar.Outcome

variable {α β : Type}

namespace Phrase

@[simp] theorem bind_unit (phrase : Phrase Unit) : (phrase >>= fun _ => pure ()) = phrase := by
  funext tokens value
  refine propext ⟨?_, fun h => ⟨tokens, [], value, (List.append_nil tokens).symm, h, rfl, rfl⟩⟩
  rintro ⟨front, back, a, rfl, h, rfl, rfl⟩
  rwa [List.append_nil]

/-- The mark of a symmetric relationship without its last bracket. -/
def partialMark : Phrase Unit := do
  symbol .leftBracket
  pure () <|> do
    let _ ← keywordValue SymmetricKind.ofMark?
    pure ()

/-- The mark without an arrow after it. -/
def openMark : Phrase Unit :=
  partialMark <|> do
    let _ ← symmetricMark
    pure ()

/-- The aggregates that a relationship exposes, broken off after a comma. -/
def stalledExposure : Phrase Unit :=
  property .exposedAggregates (openList name never)

/-- What follows an arrow, broken off in a bracket or in a body. -/
def stalledTarget (roles : Phrase (List α)) : Phrase Unit :=
  symbol .leftBracket <|> do
    let _ ← orEmpty roles
    let _ ← name
    openBody relationshipItem stalledExposure

/-- A directed relationship that breaks off before its arrow or at `stall`. -/
def openDirected (roles : Phrase (List α)) (mark : Symbol) (stall : Phrase Unit) : Phrase Unit :=
  symbol .leftBracket
    <|> (do let _ ← roles; pure ())
    <|> do
      let _ ← orEmpty roles
      symbol mark
      stall

/-- The first context of a relationship and what does not decide it, or an arrow and what stalls after it. -/
def stalledRelationship : Phrase Unit := do
  let _ ← name
  pure () <|> openMark
    <|> openDirected upstreamRoles .arrow (stalledTarget downstreamRoles)
    <|> openDirected downstreamRoles .leftArrow (stalledTarget upstreamRoles)

end Phrase

/-! ## Roles and marks -/

theorem truncated_roles {short long : Keyword} {pattern : Reader Token α} {phrase : Phrase α}
    (hReads : Reads pattern phrase noToken) (h : Truncated pattern phrase .never noToken) (hApart : short ≠ long) :
    TruncatedItem (Grammar.roles short long pattern) (Phrase.roles short long phrase) (· = .symbol .leftBracket)
      (Phrase.symbol .leftBracket) noToken := by
  have hElement := (truncated_symbol .comma).bind_whole (Item.toReads (item_symbol .comma)) (fun _ => h.commit)
    fun _ => firm_commit _
  have hElementItem := (item_symbol .comma).bind fun _ => hReads.commit
  have hElements := hElement.many hElementItem fun _ _ hNone => hNone
  rw [Phrase.bind_never] at hElements
  have hList := hElements.any.bind_whole (hElementItem.many fun _ _ hNone => hNone)
    (truncated_close .rightBracket)
    (fun patterns back result => ((item_symbol .rightBracket).begins.bind _).clear (by simp [noToken]))
  have hSide := (item_keyword short).orElse (item_keyword long) (by simp [hApart.symm])
  have hSides := (truncated_keyword short).orElse (truncated_keyword long) (by simp [hApart.symm])
  rw [Phrase.never_or] at hSides
  have hNothing : ∀ t, noToken t ∨ noToken t → noToken t := by simp [noToken]
  have hInner := (hSides.mono (fun _ => id) hNothing).bind_whole (hSide.toReads.mono hNothing) (fun _ => hList.commit)
    fun _ => firm_commit _
  have hRoles := (truncated_symbol .leftBracket).lead (Item.toReads (item_symbol .leftBracket)) fun _ => hInner
  simp only [Phrase.never_or, Phrase.or_never, Phrase.bind_unit] at hRoles
  exact hRoles

theorem truncated_upstreamRoles : TruncatedItem Grammar.upstreamRoles Phrase.upstreamRoles
    (· = .symbol .leftBracket) (Phrase.symbol .leftBracket) noToken :=
  truncated_roles (item_keywordValue _ _).toReads (truncated_keywordValue _ _).whole (by decide)

theorem truncated_downstreamRoles : TruncatedItem Grammar.downstreamRoles Phrase.downstreamRoles
    (· = .symbol .leftBracket) (Phrase.symbol .leftBracket) noToken :=
  truncated_roles (item_keywordValue _ _).toReads (truncated_keywordValue _ _).whole (by decide)

theorem truncated_symmetricMark : TruncatedItem Grammar.symmetricMark Phrase.symmetricMark
    (· = .symbol .leftBracket) Phrase.partialMark noToken := by
  have hKind := (truncated_keywordValue .symmetricMark SymmetricKind.ofMark?).lead
    (item_keywordValue .symmetricMark _).toReads fun kind => (truncated_symbol .rightBracket).map fun _ => kind
  have hMark := (truncated_symbol .leftBracket).lead (Item.toReads (item_symbol .leftBracket)) fun _ => hKind
  simp only [Phrase.never_or, Phrase.or_never] at hMark
  exact hMark

/-! ## What follows an arrow -/

theorem truncated_relationshipItem : TruncatedItem Grammar.relationshipItem Phrase.relationshipItem
    (fun t => t = .keyword .exposedAggregates ∨ t = .keyword .implementationTechnology) Phrase.stalledExposure
    (· = .symbol .comma) := by
  have hExposed := (truncated_property .exposedAggregates truncated_names).map RelationshipItem.exposedAggregates
  have hTechnology := TruncatedItem.map truncated_implementationTechnology RelationshipItem.implementationTechnology
  have hAll := hExposed.orElse hTechnology (by simp)
  rw [Phrase.or_never] at hAll
  apply hAll.mono
  · exact fun _ h => h
  · simp [noToken]

theorem truncated_relationshipBody : Truncated (Grammar.optionalBlock Grammar.relationshipItem)
    (Phrase.optionalBlock Phrase.relationshipItem) (Phrase.openBody Phrase.relationshipItem Phrase.stalledExposure)
    (· = .symbol .leftBrace) := by
  apply truncated_optionalBlock truncated_relationshipItem item_relationshipItem <;> simp

def Grammar.target (roles : Reader Token (List α)) (expected : Expected)
    (make : List α → String → List RelationshipItem → β) : Reader Token β := do
  let patterns ← orEmpty roles
  let target ← Reader.expecting expected name
  let body ← optionalBlock relationshipItem
  return make patterns target body

def Phrase.target (roles : Phrase (List α)) (make : List α → String → List RelationshipItem → β) : Phrase β := do
  let patterns ← orEmpty roles
  let target ← name
  let body ← optionalBlock relationshipItem
  return make patterns target body

theorem truncated_target {roles : Reader Token (List α)} {phrase : Phrase (List α)} (expected : Expected)
    (make : List α → String → List RelationshipItem → β)
    (h : TruncatedItem roles phrase (· = .symbol .leftBracket) (Phrase.symbol .leftBracket) noToken)
    (hItem : Item roles phrase (· = .symbol .leftBracket) noToken) :
    Truncated (Grammar.target roles expected make) (Phrase.target phrase make) (Phrase.stalledTarget phrase)
      (· = .symbol .leftBrace) := by
  have hName (patterns : List α) := (TruncatedItem.expecting truncated_name expected).whole.bind_free
    ((Item.toReads item_name).expecting expected)
    fun target => Truncated.map truncated_relationshipBody (make patterns target)
  refine h.orEmpty.bind hItem.orEmpty hName ?_ ?_ ?_
  · exact fun patterns back result => ((Item.begins item_name).bind _).clear (by simp [isName, noToken])
  · exact fun patterns back => ((Item.begins item_name).bind _).clear (by simp [isName, noToken])
  · intro patterns rest hRest
    have hStalled : (Reader.expecting expected Grammar.name rest).Stalled noToken :=
      stalled_expecting.mpr (stalled_token truncated_name hRest (by simp [isName, noToken]))
    exact hStalled.bind_none

/-! ## Directed relationships -/

/-- What follows the first context of a directed relationship. -/
def Grammar.directed (roles : Reader Token (List α)) (mark : Symbol) (next : List α → Reader Token β) : Reader Token β := do
  let patterns ← orEmpty roles
  symbol mark
  commit (next patterns)

def Phrase.directed (roles : Phrase (List α)) (mark : Symbol) (next : List α → Phrase β) : Phrase β := do
  let patterns ← orEmpty roles
  symbol mark
  next patterns

section

variable {roles : Reader Token (List α)} {tokens rest : List Token} {patterns : List α}

theorem orEmpty_of_accepted (h : roles tokens = .accepted patterns rest) :
    orEmpty roles tokens = .accepted patterns rest := by
  simp [orEmpty, Reader.optional, bind, h, pure]

theorem orEmpty_of_declined (h : (roles tokens).Declined) : orEmpty roles tokens = .accepted [] tokens := by
  obtain ⟨mismatch, hDeclined⟩ := declined_iff.mp h
  simp [orEmpty, Reader.optional, bind, hDeclined, pure]

theorem orEmpty_of_refused {mismatch : Mismatch Token} (h : roles tokens = .refused mismatch) :
    orEmpty roles tokens = .refused mismatch := by
  simp [orEmpty, Reader.optional, bind, h]

variable {mark : Symbol} {next : List α → Reader Token β}

theorem directed_of_refused {mismatch : Mismatch Token} (h : roles tokens = .refused mismatch) :
    Grammar.directed roles mark next tokens = .refused mismatch := by
  simp only [Grammar.directed, bind, orEmpty_of_refused h]

theorem directed_of_orEmpty (h : orEmpty roles tokens = .accepted patterns (.symbol mark :: rest)) :
    Grammar.directed roles mark next tokens = commit (next patterns) rest := by
  rw [Grammar.directed, bind_eq_of_accepted h]
  simp [Grammar.symbol, Reader.token, bind]

/-- Without roles the arrow has to stand first, and after roles it has to follow. -/
theorem directed_declined (h : (roles tokens).Declined) (hClear : Clear (· = .symbol mark) tokens) :
    (Grammar.directed roles mark next tokens).Declined := by
  rw [Grammar.directed, bind_eq_of_accepted (orEmpty_of_declined h)]
  exact (declined_of_declines (item_symbol mark).declines hClear).bind

theorem directed_declined_of_accepted (h : roles tokens = .accepted patterns []) :
    (Grammar.directed roles mark next tokens).Declined := by
  rw [Grammar.directed, bind_eq_of_accepted (orEmpty_of_accepted h)]
  trivial

end

section

variable {roles : Reader Token (List α)} {phrase : Phrase (List α)} {mark : Symbol} {next : List α → Reader Token β}
  (h : TruncatedItem roles phrase (· = .symbol .leftBracket) (Phrase.symbol .leftBracket) noToken)
  (hItem : Item roles phrase (· = .symbol .leftBracket) noToken)
include h hItem

/-- Roles that break off before the arrow. -/
theorem ended_directed {front back : List Token} {patterns : List α}
    (hRoles : Phrase.orEmpty phrase (front ++ back) patterns) (hSome : front ≠ [])
    (hBracket : ¬ Phrase.symbol .leftBracket front ()) (hWhole : ∀ patterns, ¬ phrase front patterns) :
    (Grammar.directed roles mark next front).Ended ∧ ¬ (Grammar.directed roles mark next front).Declined := by
  obtain ⟨patterns?, hOptional, -⟩ := Phrase.map_iff.mp hRoles
  generalize hTokens : front ++ back = tokens at hOptional
  cases hOptional with
  | none => exact absurd (List.append_eq_nil_iff.mp hTokens).1 hSome
  | some hPhrase =>
    subst hTokens
    rcases h.accepted_or_refused hItem.toReads hPhrase hSome hBracket with
      ⟨found, hFound, -⟩ | ⟨mismatch, hRefused, hEnd⟩
    · exact absurd hFound (hWhole found)
    · rw [directed_of_refused hRefused]
      exact ⟨hEnd, id⟩

variable {others : List α → Phrase β} {stall : Phrase Unit} {last : Token → Prop} (hMark : mark ≠ .leftBracket)
  (hNext : ∀ patterns, Truncated (next patterns) (others patterns) stall last)
include hMark hNext

theorem truncated_directed : TruncatedItem (Grammar.directed roles mark next) (Phrase.directed phrase mark others)
    (fun t => t = .symbol .leftBracket ∨ t = .symbol mark) (Phrase.openDirected phrase mark stall) last where
  begins := by
    rintro _ value ⟨_, _, patterns, rfl, hRoles, _, _, _, rfl, hArrow, -⟩
    rw [Phrase.symbol_iff.mp hArrow]
    obtain ⟨patterns?, hOptional, -⟩ := Phrase.map_iff.mp hRoles
    cases hOptional with
    | none => exact ⟨_, _, rfl, .inr rfl⟩
    | some hSome =>
      obtain ⟨t, others, rfl, hFirst⟩ := hItem.begins _ _ hSome
      exact ⟨_, _, rfl, .inl hFirst⟩
  declines := by
    intro tokens hClear
    have hRoles := declined_of_declines h.declines (hClear.mono fun _ => .inl)
    exact declined_iff.mp (directed_declined hRoles (hClear.mono fun _ => .inr))
  empty := by
    rw [Grammar.directed, bind_eq_of_accepted (orEmpty_of_declined h.declined_nil)]
    exact ⟨rfl, _, rfl⟩
  ends := by
    rintro front back result ⟨begin, _, patterns, hTokens, hRoles, _, rest, _, rfl, hArrow, hOthers⟩ hSome hGoesOn
    rw [Phrase.symbol_iff.mp hArrow] at hTokens
    have hWhole (patterns : List α) : ¬ phrase front patterns := fun hPhrase =>
      hGoesOn (.inr (.inl ⟨front, [], patterns, (List.append_nil front).symm, hPhrase, rfl, rfl⟩))
    rcases List.append_eq_append_iff.mp hTokens with ⟨between, rfl, -⟩ | ⟨between, rfl, hBetween⟩
    · exact ended_directed h hItem hRoles hSome (fun hBracket => hGoesOn (.inl hBracket)) hWhole
    · cases between with
      | nil =>
        rw [← List.append_nil begin] at hRoles
        rw [List.append_nil] at hSome hGoesOn hWhole ⊢
        exact ended_directed h hItem hRoles hSome (fun hBracket => hGoesOn (.inl hBracket)) hWhole
      | cons t more =>
        obtain ⟨rfl, rfl⟩ := List.cons.inj hBetween
        have hRead : orEmpty roles (begin ++ .symbol mark :: more) = .accepted patterns (.symbol mark :: more) :=
          hItem.orEmpty.complete hRoles (clear_cons.mpr (by simpa [noToken] using hMark))
        rw [directed_of_orEmpty hRead]
        have hEnds := (hNext patterns).ends hOthers fun hStall => hGoesOn
          (.inr (.inr ⟨begin, _, patterns, rfl, hRoles, [_], more, (), rfl, Phrase.symbol_iff.mpr rfl, hStall⟩))
        exact ⟨ended_commit.mpr hEnds, firm_commit _ _⟩
  stalls := by
    rintro front (hBracket | ⟨front, _, patterns, rfl, hPhrase, rfl, -⟩ |
      ⟨begin, _, patterns, rfl, hRoles, _, rest, _, rfl, hArrow, hStall⟩)
    · obtain ⟨⟨t, ht, hFirst⟩, hRoles⟩ := h.stalls hBracket
      refine ⟨⟨t, ht, .inl hFirst⟩, ?_⟩
      cases hOutcome : roles front with
      | declined mismatch =>
        rw [Phrase.symbol_iff.mp hBracket] at hOutcome ⊢
        refine .inl (directed_declined (declined_iff.mpr ⟨mismatch, hOutcome⟩) ?_)
        exact clear_cons.mpr (by simpa using hMark.symm)
      | accepted patterns rest =>
        rw [hOutcome] at hRoles
        exact absurd (hRoles.resolve_left id) not_head_noToken
      | refused mismatch =>
        rw [hOutcome] at hRoles
        rw [directed_of_refused hOutcome]
        exact .inr (hRoles.resolve_left id)
    · obtain ⟨t, others, rfl, hFirst⟩ := hItem.begins _ _ hPhrase
      have hRead : roles (t :: others ++ []) = .accepted patterns [] := hItem.complete hPhrase (by simp [Clear])
      exact ⟨⟨t, rfl, .inl hFirst⟩, .inl (directed_declined_of_accepted hRead)⟩
    · rw [Phrase.symbol_iff.mp hArrow]
      have hRead : orEmpty roles (begin ++ .symbol mark :: rest) = .accepted patterns (.symbol mark :: rest) :=
        hItem.orEmpty.complete hRoles (clear_cons.mpr (by simpa [noToken] using hMark))
      refine ⟨?_, .inr ?_⟩
      · have hBegins := (Phrase.Begins.mayBegin_optional hItem.begins).map (·.getD [])
        cases begin with
        | nil => exact ⟨_, rfl, .inr rfl⟩
        | cons t tail => exact ⟨t, rfl, .inl (hBegins _ _ hRoles t rfl)⟩
      · rw [List.singleton_append, directed_of_orEmpty hRead, stalled_commit]
        exact (hNext patterns).stalls hStall

end

/-! ## Relationships -/

namespace Grammar

def wordedTail (left : String) : Reader Token RelationshipDecl := do
  let kind ← keywordValue .symmetricKind SymmetricKind.ofKeyword?
  commit do
    let right ← name
    return .symmetric kind left right

def markedTail (left : String) : Reader Token RelationshipDecl := do
  let kind ← symmetricMark
  symbol .doubleArrow
  commit do
    let _ ← expecting .sameSymmetricKind (satisfying (· == kind) symmetricMark)
    let right ← name
    return .symmetric kind left right

def forwardTail (upstream : String) : Reader Token RelationshipDecl :=
  directed upstreamRoles .arrow fun patterns =>
    target downstreamRoles .downstreamContext fun theirs downstream body =>
      .directed upstream downstream patterns theirs body

def backwardTail (downstream : String) : Reader Token RelationshipDecl :=
  directed downstreamRoles .leftArrow fun patterns =>
    target upstreamRoles .upstreamContext fun theirs upstream body =>
      .directed upstream downstream theirs patterns body

theorem relationship_eq : relationship = expecting .relationship (name >>= fun first =>
    wordedTail first <|> markedTail first <|> forwardTail first <|> backwardTail first) := by
  simp only [bind_orElse]
  rfl

end Grammar

namespace Phrase

def wordedTail (left : String) : Phrase RelationshipDecl := do
  let kind ← keywordValue SymmetricKind.ofKeyword?
  let right ← name
  return .symmetric kind left right

def markedTail (left : String) : Phrase RelationshipDecl := do
  let kind ← symmetricMark
  symbol .doubleArrow
  let _ ← satisfying (· = kind) symmetricMark
  let right ← name
  return .symmetric kind left right

def forwardTail (upstream : String) : Phrase RelationshipDecl :=
  directed upstreamRoles .arrow fun patterns =>
    target downstreamRoles fun theirs downstream body => .directed upstream downstream patterns theirs body

def backwardTail (downstream : String) : Phrase RelationshipDecl :=
  directed downstreamRoles .leftArrow fun patterns =>
    target upstreamRoles fun theirs upstream body => .directed upstream downstream theirs patterns body

theorem relationship_eq : relationship = name >>= fun first =>
    wordedTail first <|> markedTail first <|> forwardTail first <|> backwardTail first := by
  simp only [bind_or]
  rfl

end Phrase

theorem truncated_wordedTail (left : String) : TruncatedItem (Grammar.wordedTail left) (Phrase.wordedTail left)
    (hasValue SymmetricKind.ofKeyword?) .never noToken :=
  (truncated_keywordValue _ _).bind_whole (item_keywordValue _ _).toReads
    (fun kind => ((TruncatedItem.whole truncated_name).map (RelationshipDecl.symmetric kind left)).commit)
    fun _ => firm_commit _

/-- The second mark is not given back. -/
theorem truncated_sameMark (kind : SymmetricKind) : Truncated
    (Reader.expecting .sameSymmetricKind (satisfying (· == kind) Grammar.symmetricMark))
    (Phrase.satisfying (· = kind) Phrase.symmetricMark) .never noToken := by
  have hMark : Truncated Grammar.symmetricMark Phrase.symmetricMark .never noToken := by
    refine (truncated_symbol .leftBracket).whole.free_whole (Item.toReads (item_symbol .leftBracket)) fun _ => ?_
    refine (truncated_keywordValue _ _).whole.free_whole (item_keywordValue _ _).toReads fun kind => ?_
    exact (truncated_symbol .rightBracket).whole.map fun _ => kind
  exact (hMark.satisfying (Item.toReads item_symmetricMark) fun _ => beq_iff_eq).expecting _

theorem truncated_markedTail (left : String) : TruncatedItem (Grammar.markedTail left) (Phrase.markedTail left)
    (· = .symbol .leftBracket) Phrase.openMark noToken := by
  have hReads (kind : SymmetricKind) := ((Item.toReads item_symmetricMark).satisfying (· == kind) (· = kind)
    fun _ => beq_iff_eq).expecting .sameSymmetricKind
  have hName : Truncated Grammar.name Phrase.name .never noToken := TruncatedItem.whole truncated_name
  have hSame (kind : SymmetricKind) := (truncated_sameMark kind).free_whole (hReads kind)
    fun _ => hName.map (RelationshipDecl.symmetric kind left)
  have hArrow (kind : SymmetricKind) := (truncated_symbol .doubleArrow).bind_whole
    (Item.toReads (item_symbol .doubleArrow)) (fun _ => (hSame kind).commit) fun _ => firm_commit _
  have hMarked := TruncatedItem.lead truncated_symmetricMark (Item.toReads item_symmetricMark) hArrow
  simp only [Phrase.or_never] at hMarked
  exact hMarked

theorem truncated_forwardTail (upstream : String) :
    TruncatedItem (Grammar.forwardTail upstream) (Phrase.forwardTail upstream)
      (fun t => t = .symbol .leftBracket ∨ t = .symbol .arrow)
      (Phrase.openDirected Phrase.upstreamRoles .arrow (Phrase.stalledTarget Phrase.downstreamRoles))
      (· = .symbol .leftBrace) :=
  truncated_directed truncated_upstreamRoles item_upstreamRoles (by decide) fun _ =>
    truncated_target _ _ truncated_downstreamRoles item_downstreamRoles

theorem truncated_backwardTail (downstream : String) :
    TruncatedItem (Grammar.backwardTail downstream) (Phrase.backwardTail downstream)
      (fun t => t = .symbol .leftBracket ∨ t = .symbol .leftArrow)
      (Phrase.openDirected Phrase.downstreamRoles .leftArrow (Phrase.stalledTarget Phrase.upstreamRoles))
      (· = .symbol .leftBrace) :=
  truncated_directed truncated_downstreamRoles item_downstreamRoles (by decide) fun _ =>
    truncated_target _ _ truncated_upstreamRoles item_upstreamRoles

/-! ## Telling the forms apart before the end -/

section

variable {short long : Keyword} {pattern : Phrase α} {mark : Symbol}

/-- A bracket alone does not tell whose it is. -/
theorem RolesAhead.front {front back : List Token} (h : RolesAhead short long mark (front ++ back)) (hSome : front ≠ [])
    (hBracket : front ≠ [.symbol .leftBracket]) : RolesAhead short long mark front := by
  generalize hTokens : front ++ back = tokens at h
  obtain ⟨t, others, rfl⟩ := List.exists_cons_of_ne_nil hSome
  cases h with
  | arrow rest =>
    obtain ⟨rfl, -⟩ := List.cons.inj hTokens
    exact .arrow others
  | bracket k rest hSide =>
    obtain ⟨rfl, hOthers⟩ := List.cons.inj hTokens
    cases others with
    | nil => exact absurd rfl hBracket
    | cons u tail =>
      obtain ⟨rfl, -⟩ := List.cons.inj hOthers
      exact .bracket k tail hSide

theorem rolesAhead_of_orEmpty {begin rest : List Token} {patterns : List α}
    (h : Phrase.orEmpty (Phrase.roles short long pattern) begin patterns) :
    RolesAhead short long mark (begin ++ .symbol mark :: rest) := by
  obtain ⟨patterns?, hOptional, -⟩ := Phrase.map_iff.mp h
  cases hOptional with
  | none => exact .arrow rest
  | some hSome => exact (rolesAhead_of_roles hSome).append _

theorem rolesAhead_of_directed {next : List α → Phrase β} {tokens : List Token} {value : β}
    (h : Phrase.directed (Phrase.roles short long pattern) mark next tokens value) :
    RolesAhead short long mark tokens := by
  obtain ⟨_, _, patterns, rfl, hRoles, _, rest, _, rfl, hArrow, -⟩ := h
  rw [Phrase.symbol_iff.mp hArrow]
  exact rolesAhead_of_orEmpty hRoles

theorem rolesAhead_of_openDirected {stall : Phrase Unit} {tokens : List Token}
    (h : Phrase.openDirected (Phrase.roles short long pattern) mark stall tokens ()) :
    tokens = [.symbol .leftBracket] ∨ RolesAhead short long mark tokens := by
  rcases h with hBracket | ⟨front, _, patterns, rfl, hRoles, rfl, -⟩ |
    ⟨_, _, patterns, rfl, hRoles, _, rest, _, rfl, hArrow, -⟩
  · exact .inl (Phrase.symbol_iff.mp hBracket)
  · exact .inr ((rolesAhead_of_roles hRoles).append [])
  · rw [Phrase.symbol_iff.mp hArrow]
    exact .inr (rolesAhead_of_orEmpty hRoles)

/-- The front of a directed relationship that has not stalled tells its side. -/
theorem rolesAhead_of_front {next : List α → Phrase β} {stall : Phrase Unit} {front back : List Token} {value : β}
    (h : Phrase.directed (Phrase.roles short long pattern) mark next (front ++ back) value) (hSome : front ≠ [])
    (hGoesOn : ¬ Phrase.openDirected (Phrase.roles short long pattern) mark stall front ()) :
    RolesAhead short long mark front := by
  refine (rolesAhead_of_directed h).front hSome ?_
  rintro rfl
  exact hGoesOn (.inl (Phrase.symbol_iff.mpr rfl))

/-- The tokens do not let a directed relationship of these sides go on. -/
inductive NotAhead (short long : Keyword) (mark : Symbol) : List Token → Prop
  | bracket : NotAhead short long mark [.symbol .leftBracket]
  | side (k : Keyword) (rest : List Token) (hSide : ¬ (k = short ∨ k = long)) :
      NotAhead short long mark (.symbol .leftBracket :: .keyword k :: rest)
  | arrow (other : Symbol) (rest : List Token) (hOther : other ≠ .leftBracket) (hMark : other ≠ mark) :
      NotAhead short long mark (.symbol other :: rest)

theorem directed_declined_of_notAhead {pattern : Reader Token α} {next : List α → Reader Token β} {tokens : List Token}
    (h : NotAhead short long mark tokens) (hMark : mark ≠ .leftBracket) :
    (Grammar.directed (Grammar.roles short long pattern) mark next tokens).Declined := by
  cases h with
  | bracket => exact directed_declined trivial (clear_cons.mpr (by simpa using hMark.symm))
  | side k rest hSide =>
    refine directed_declined ?_ (clear_cons.mpr (by simpa using hMark.symm))
    have hKeyword : ((Grammar.keyword short <|> Grammar.keyword long : Reader Token Unit) (.keyword k :: rest)).Declined :=
      declined_of_declines ((item_keyword short).declines.orElse (item_keyword long).declines)
        (clear_cons.mpr (by simpa using hSide))
    exact hKeyword.bind
  | arrow other rest hOther hMark =>
    refine directed_declined ?_ (clear_cons.mpr (by simpa using hMark))
    exact (declined_of_declines (item_symbol .leftBracket).declines (clear_cons.mpr (by simpa using hOther))).bind

/-- One side leaves no room for the other. -/
theorem RolesAhead.notAhead {short' long' : Keyword} {mark' : Symbol} {tokens : List Token}
    (h : RolesAhead short' long' mark' tokens) (hSide : ∀ k, k = short' ∨ k = long' → ¬ (k = short ∨ k = long))
    (hBracket : mark' ≠ .leftBracket) (hMark : mark' ≠ mark) : NotAhead short long mark tokens := by
  cases h with
  | arrow rest => exact .arrow mark' rest hBracket hMark
  | bracket k rest hKeyword => exact .side k rest (hSide k hKeyword)

theorem notAhead_of_openMark {tokens : List Token} (h : Phrase.openMark tokens ())
    (hShort : SymmetricKind.ofMark? short = none) (hLong : SymmetricKind.ofMark? long = none) :
    NotAhead short long mark tokens := by
  have hSide {k : Keyword} {kind : SymmetricKind} (hKind : SymmetricKind.ofMark? k = some kind) :
      ¬ (k = short ∨ k = long) := by
    rintro (rfl | rfl) <;> simp_all
  rcases h with ⟨_, _, _, rfl, hBracket, ⟨rfl, -⟩ | ⟨_, _, kind, rfl, hKind, rfl, -⟩⟩ |
    ⟨_, _, _, rfl, ⟨_, _, _, rfl, hBracket, _, rest, kind, rfl, hKind, -⟩, rfl, -⟩
  · rw [Phrase.symbol_iff.mp hBracket]
    exact .bracket
  · obtain ⟨k, rfl, hSome⟩ := Phrase.keywordValue_iff.mp hKind
    rw [Phrase.symbol_iff.mp hBracket]
    exact .side k _ (hSide hSome)
  · obtain ⟨k, rfl, hSome⟩ := Phrase.keywordValue_iff.mp hKind
    rw [Phrase.symbol_iff.mp hBracket]
    exact .side k _ (hSide hSome)

end

theorem markedTail_declined {short long : Keyword} {mark : Symbol} {tokens : List Token} (left : String)
    (h : tokens = [.symbol .leftBracket] ∨ RolesAhead short long mark tokens) (hMark : mark ≠ .leftBracket)
    (hShort : SymmetricKind.ofMark? short = none) (hLong : SymmetricKind.ofMark? long = none) :
    (Grammar.markedTail left tokens).Declined := by
  rcases h with rfl | hAhead
  · trivial
  · exact (declined_iff.mpr (symmetricMark_declines hAhead hMark hShort hLong)).bind

theorem notAhead_of_downstream {tokens : List Token}
    (h : tokens = [.symbol .leftBracket] ∨ RolesAhead .d .downstream .leftArrow tokens) :
    NotAhead .u .upstream .arrow tokens := by
  rcases h with rfl | hAhead
  · exact .bracket
  · exact hAhead.notAhead (by simp +contextual) (by decide) (by decide)

theorem notAhead_of_upstream {tokens : List Token}
    (h : tokens = [.symbol .leftBracket] ∨ RolesAhead .u .upstream .arrow tokens) :
    NotAhead .d .downstream .leftArrow tokens := by
  rcases h with rfl | hAhead
  · exact .bracket
  · exact hAhead.notAhead (by simp +contextual) (by decide) (by decide)

theorem truncated_directedTail (first : String) :
    TruncatedItem (Grammar.forwardTail first <|> Grammar.backwardTail first)
      (Phrase.forwardTail first <|> Phrase.backwardTail first)
      (fun t => (t = .symbol .leftBracket ∨ t = .symbol .arrow) ∨ (t = .symbol .leftBracket ∨ t = .symbol .leftArrow))
      (Phrase.openDirected Phrase.upstreamRoles .arrow (Phrase.stalledTarget Phrase.downstreamRoles)
        <|> Phrase.openDirected Phrase.downstreamRoles .leftArrow (Phrase.stalledTarget Phrase.upstreamRoles))
      (fun t => t = .symbol .leftBrace ∨ t = .symbol .leftBrace) := by
  refine (truncated_forwardTail first).orElse_of_declines (truncated_backwardTail first) ?_ ?_ ?_
  · intro front back value hPhrase hSome hGoesOn
    have hAhead := rolesAhead_of_front hPhrase hSome hGoesOn
    exact directed_declined_of_notAhead (notAhead_of_downstream (.inr hAhead)) (by decide)
  · intro front hStall
    exact directed_declined_of_notAhead (notAhead_of_upstream (rolesAhead_of_openDirected hStall)) (by decide)
  · intro front hStall
    exact directed_declined_of_notAhead (notAhead_of_downstream (rolesAhead_of_openDirected hStall)) (by decide)

theorem truncated_unwordedTail (first : String) :
    TruncatedItem (Grammar.markedTail first <|> Grammar.forwardTail first <|> Grammar.backwardTail first)
      (Phrase.markedTail first <|> Phrase.forwardTail first <|> Phrase.backwardTail first)
      (fun t => t = .symbol .leftBracket ∨ t = .symbol .arrow ∨ t = .symbol .leftArrow)
      (Phrase.openMark
        <|> Phrase.openDirected Phrase.upstreamRoles .arrow (Phrase.stalledTarget Phrase.downstreamRoles)
        <|> Phrase.openDirected Phrase.downstreamRoles .leftArrow (Phrase.stalledTarget Phrase.upstreamRoles))
      (· = .symbol .leftBrace) := by
  refine TruncatedItem.mono ((truncated_markedTail first).orElse_of_declines (truncated_directedTail first) ?_ ?_ ?_)
    (by grind) (by simp [noToken])
  · rintro front back value (hPhrase | hPhrase) hSome hGoesOn
    · have hAhead := rolesAhead_of_front hPhrase hSome fun hStall => hGoesOn (.inl hStall)
      exact markedTail_declined first (.inr hAhead) (by decide) rfl rfl
    · have hAhead := rolesAhead_of_front hPhrase hSome fun hStall => hGoesOn (.inr hStall)
      exact markedTail_declined first (.inr hAhead) (by decide) rfl rfl
  · intro front hStall
    have hForward : (Grammar.forwardTail first front).Declined :=
      directed_declined_of_notAhead (notAhead_of_openMark hStall rfl rfl) (by decide)
    rw [declined_orElse hForward]
    exact directed_declined_of_notAhead (notAhead_of_openMark hStall rfl rfl) (by decide)
  · rintro front (hStall | hStall)
    · exact markedTail_declined first (rolesAhead_of_openDirected hStall) (by decide) rfl rfl
    · exact markedTail_declined first (rolesAhead_of_openDirected hStall) (by decide) rfl rfl

theorem truncated_relationship : TruncatedItem Grammar.relationship Phrase.relationship isName
    Phrase.stalledRelationship (· = .symbol .leftBrace) := by
  have hLast : ∀ t, noToken t ∨ t = .symbol .leftBrace → t = .symbol .leftBrace := by simp [noToken]
  have hTail (first : String) := ((truncated_wordedTail first).orElse (truncated_unwordedTail first)
    (by simp [hasValue])).mono (fun _ => id) hLast
  have hNamed := TruncatedItem.lead truncated_name (Item.toReads item_name) hTail
  simp only [Phrase.never_or] at hNamed
  rw [Grammar.relationship_eq, Phrase.relationship_eq]
  exact hNamed.expecting .relationship

/-! ## Maps and declarations -/

namespace Phrase

/-- The contexts of a map, broken off after a comma. -/
def stalledContained : Phrase Unit := do
  keyword .contains
  openList name never

def stalledMapItem : Phrase Unit :=
  stalledContained <|> stalledRelationship

def stalledMap : Phrase Unit := do
  keyword .contextMap
  let _ ← optional name
  openBlock mapItem stalledMapItem

/-- The beginnings of a declaration that are given back at some point. -/
def stalledDeclaration : Phrase Unit :=
  stalledMap <|> stalledContext

end Phrase

theorem truncated_contained : TruncatedItem Grammar.contained Phrase.contained (· = .keyword .contains)
    Phrase.stalledContained (· = .symbol .comma) := by
  have hContained := (truncated_keyword .contains).bind (Item.toReads (item_keyword .contains))
    (fun _ => (Truncated.commit truncated_names)) fun _ => firm_commit _
  rwa [Phrase.never_or] at hContained

theorem truncated_mapItem : TruncatedItem Grammar.mapItem Phrase.mapItem startsMapItem Phrase.stalledMapItem
    prolongsItem := by
  have hRelationship := TruncatedItem.map truncated_relationship MapItem.relationship
  have hContains := (TruncatedItem.map truncated_contained MapItem.contains).orElse hRelationship (by simp [isName])
  have hState := ((truncated_wholeProperty .state (truncated_keywordValue .mapState MapState.ofKeyword?).whole).map
    MapItem.state).orElse hContains (by simp [isName])
  have hAll := ((truncated_wholeProperty .type (TruncatedItem.whole truncated_word)).map MapItem.type).orElse hState
    (by simp [isName])
  simp only [Phrase.never_or] at hAll
  apply hAll.mono
  · exact fun _ h => h
  · simp +contextual [prolongsItem, noToken]

theorem truncated_mapDecl : TruncatedItem Grammar.mapDecl Phrase.mapDecl (· = .keyword .contextMap) Phrase.stalledMap
    noToken := by
  have hBlock : Truncated (Grammar.block Grammar.mapItem) (Phrase.block Phrase.mapItem)
      (Phrase.openBlock Phrase.mapItem Phrase.stalledMapItem) noToken := by
    apply truncated_block truncated_mapItem item_mapItem <;> simp [startsMapItem, prolongsItem, isName]
  have hName : Truncated (Reader.optional Grammar.name) (Phrase.optional Phrase.name) .never noToken :=
    (TruncatedItem.optional truncated_name).any
  have hBrace := (item_symbol .leftBrace).begins
  have hNamed := hName.bind (Item.optional item_name) (fun name => hBlock.map fun items => ({ name, items } : MapDecl))
    (fun name back result => ((hBrace.bind _).map _).clear (by simp [isName, noToken]))
    (fun name back => (hBrace.bind _).clear (by simp [isName, noToken]))
    fun _ _ hNone => (not_head_noToken hNone).elim
  have hMap := (truncated_keyword .contextMap).bind (Item.toReads (item_keyword .contextMap)) (fun _ => hNamed.commit)
    fun _ => firm_commit _
  rw [Phrase.never_or, Phrase.never_or] at hMap
  exact hMap

theorem truncated_declaration : TruncatedItem Grammar.declaration Phrase.declaration startsDeclaration
    Phrase.stalledDeclaration noToken := by
  have hContext := ((TruncatedItem.expecting truncated_contextDecl .boundedContext).map
    Declaration.boundedContext).orElse (TruncatedItem.decline .declaration noToken noToken) fun _ => False.elim
  have hAll := ((TruncatedItem.expecting truncated_mapDecl .contextMap).map Declaration.contextMap).orElse hContext
    (by simp [noToken])
  rw [Phrase.or_never, Phrase.or_never] at hAll
  apply hAll.mono
  · simp [startsDeclaration, noToken]
  · simp [noToken]

end DomainAtlas
