import DomainAtlas.Proofs.Grammar.Diagnostics
import DomainAtlas.Source

/-! # Trivia never matters

Two lists of lexemes that differ in trivia only have the same tokens at other places. They describe the same model, or
are refused for the same reasons: diagnostic by diagnostic the labels say the same about the same tokens. The readers go
over all lexemes; that they do what they would do on the tokens alone (`documentOf_tokensOf`) leaves the places to compare.
-/
set_option autoImplicit false

namespace DomainAtlas

open Grammar

/-- The span of `count` tokens from the one at `first` on, or the end of all when there are none. -/
def spanOf (tokens : List (Placed Token)) (first count : Nat) : Span :=
  (Span.unionAll? (((tokens.drop first).take count).map (·.span))).getD (endSpan tokens)

/-- The span `b` covers in `others` the tokens that `a` covers in `tokens`. -/
def SamePlace (tokens others : List (Placed Token)) (a b : Span) : Prop :=
  ∃ first count, a = spanOf tokens first count ∧ b = spanOf others first count

structure Label.Agrees (tokens others : List (Placed Token)) (a b : Label) : Prop where
  message : a.message = b.message
  primary : a.primary = b.primary
  place : SamePlace tokens others a.span b.span

structure Diagnostic.Agrees (tokens others : List (Placed Token)) (a b : Diagnostic) : Prop where
  severity : a.severity = b.severity
  code : a.code = b.code
  message : a.message = b.message
  labels : List.Forall₂ (Label.Agrees tokens others) a.labels b.labels
  help : a.help = b.help

structure Placed.Agrees {α : Type} (tokens others : List (Placed Token)) (a b : Placed α) : Prop where
  value : a.value = b.value
  place : SamePlace tokens others a.span b.span

/-- Both readings succeed with related values, or both fail with diagnostics that agree one by one. -/
inductive Agree {α : Type} (tokens others : List (Placed Token)) (related : α → α → Prop) :
    Except ParseError α → Except ParseError α → Prop
  | ok {a b : α} (h : related a b) : Agree tokens others related (.ok a) (.ok b)
  | error {diagnostics later : List Diagnostic}
      (h : List.Forall₂ (Diagnostic.Agrees tokens others) diagnostics later) :
      Agree tokens others related (.error ⟨diagnostics⟩) (.error ⟨later⟩)

/-! ## Places in the tokens -/

theorem place_eq_spanOf (tokens : List (Placed Token)) (rest : List Token) :
    ((placedRest tokens rest).head?.map (·.span)).getD (endSpan tokens) =
      spanOf tokens (tokens.length - rest.length) 1 := by
  rw [spanOf, placedRest]
  cases tokens.drop (tokens.length - rest.length) <;> rfl

section

variable {tokens others : List (Placed Token)} (h : tokens.map (·.value) = others.map (·.value))
include h

theorem length_eq_of_values : tokens.length = others.length := by
  simpa using congrArg List.length h

theorem samePlace_rest (rest : List Token) :
    SamePlace tokens others (((placedRest tokens rest).head?.map (·.span)).getD (endSpan tokens))
      (((placedRest others rest).head?.map (·.span)).getD (endSpan others)) := by
  refine ⟨_, 1, place_eq_spanOf tokens rest, ?_⟩
  rw [place_eq_spanOf, length_eq_of_values h]

theorem samePlace_header (start : List Token) (value : Declaration) :
    SamePlace tokens others (headerSpan tokens start value) (headerSpan others start value) := by
  refine ⟨tokens.length - start.length, value.headerLength, ?_, ?_⟩
  · rw [headerSpan, tokensOf_tokens, placedRest, spanOf]
  · rw [headerSpan, tokensOf_tokens, placedRest, spanOf, length_eq_of_values h]

theorem head?_placedRest_values (rest : List Token) :
    (placedRest tokens rest).head?.map (·.value) = (placedRest others rest).head?.map (·.value) := by
  rw [← List.head?_map, ← List.head?_map, placedRest, placedRest, List.map_drop, List.map_drop, h,
    length_eq_of_values h]

/-! ## Stage by stage -/

theorem diagnostic_agrees (mismatch : Mismatch Token) :
    (mismatch.diagnostic tokens).Agrees tokens others (mismatch.diagnostic others) := by
  obtain ⟨complaint, rest⟩ := mismatch
  have hPlace := samePlace_rest h rest
  have hFound := head?_placedRest_values h rest
  rw [Mismatch.diagnostic, Mismatch.diagnostic, tokensOf_tokens, tokensOf_tokens]
  cases complaint with
  | nestedCollection => exact ⟨rfl, rfl, rfl, .cons ⟨rfl, rfl, hPlace⟩ .nil, rfl⟩
  | unexpected expected =>
    dsimp only
    cases hHead : (placedRest tokens rest).head? with
    | none =>
      have hNone : (placedRest others rest).head? = none := by simpa [hHead] using hFound.symm
      rw [hHead, hNone] at hPlace
      rw [hNone]
      exact ⟨rfl, rfl, rfl, .cons ⟨rfl, rfl, hPlace⟩ .nil, rfl⟩
    | some found =>
      obtain ⟨again, hAgain, hValue⟩ := Option.map_eq_some_iff.mp (hFound.symm.trans (by rw [hHead]; rfl))
      rw [hHead, hAgain] at hPlace
      rw [hAgain]
      refine ⟨rfl, rfl, ?_, .cons ⟨rfl, rfl, hPlace⟩ .nil, rfl⟩
      dsimp only
      rw [hValue]

theorem attempts_agree (tries : List (Attempt Token)) :
    List.Forall₂ (Diagnostic.Agrees tokens others) (tries.filterMap (Attempt.diagnostic? tokens))
        (tries.filterMap (Attempt.diagnostic? others)) ∧
      List.Forall₂ (Placed.Agrees tokens others) (tries.filterMap (Attempt.declaration? tokens))
        (tries.filterMap (Attempt.declaration? others)) := by
  have hSame : List.Forall₂ Eq tries tries := List.forall₂_eq_eq_eq ▸ rfl
  refine ⟨List.rel_filterMap ?_ hSame, List.rel_filterMap ?_ hSame⟩
  · rintro ⟨start, mismatch | value⟩ _ rfl
    · exact .some (diagnostic_agrees h mismatch)
    · exact .none
  · rintro ⟨start, mismatch | value⟩ _ rfl
    · exact .none
    · exact .some ⟨rfl, samePlace_header h start value⟩

theorem declarationsOf_agree :
    Agree tokens others (List.Forall₂ (Placed.Agrees tokens others)) (declarationsOf tokens)
      (declarationsOf others) := by
  obtain ⟨hDiagnostics, hDeclared⟩ := attempts_agree h (attempts (tokens.map (·.value)))
  unfold declarationsOf
  rw [← h]
  dsimp only
  generalize List.filterMap (Attempt.diagnostic? tokens) _ = diagnostics at hDiagnostics
  generalize List.filterMap (Attempt.diagnostic? others) _ = later at hDiagnostics
  cases hDiagnostics with
  | nil => exact .ok hDeclared
  | cons hFirst hOthers => exact .error (.cons hFirst hOthers)

end

section

variable {tokens others : List (Placed Token)} {declared again : List (Placed Declaration)}
  (h : List.Forall₂ (Placed.Agrees tokens others) declared again)
include h

theorem mapHeaders_agree :
    List.Forall₂ (SamePlace tokens others) (declared.filterMap mapHeader?) (again.filterMap mapHeader?) := by
  refine List.rel_filterMap ?_ h
  rintro ⟨value, span⟩ ⟨_, other⟩ ⟨rfl, hPlace⟩
  cases value with
  | contextMap decl => exact .some hPlace
  | boundedContext decl => exact .none

theorem repeatedMaps_agree :
    List.Forall₂ (Diagnostic.Agrees tokens others) (repeatedMaps declared) (repeatedMaps again) := by
  have hHeaders := mapHeaders_agree h
  unfold repeatedMaps
  generalize declared.filterMap mapHeader? = headers at hHeaders
  generalize again.filterMap mapHeader? = later at hHeaders
  cases hHeaders with
  | nil => exact .nil
  | cons hFirst hOthers =>
    refine List.rel_map (fun a b hPlace => ?_) hOthers
    exact ⟨rfl, rfl, rfl, .cons ⟨rfl, rfl, hPlace⟩ (.cons ⟨rfl, rfl, hFirst⟩ .nil), rfl⟩

theorem values_agree : declared.map (·.value) = again.map (·.value) := by
  rw [← List.forall₂_eq_eq_eq]
  exact List.rel_map (fun a b hPlaced => hPlaced.value) h

end

theorem documentOf_agree {tokens others : List (Placed Token)} (h : tokens.map (·.value) = others.map (·.value)) :
    Agree tokens others Eq (documentOf tokens) (documentOf others) := by
  have hDeclarations := declarationsOf_agree h
  unfold documentOf
  generalize declarationsOf tokens = first at hDeclarations
  generalize declarationsOf others = second at hDeclarations
  cases hDeclarations with
  | error hDiagnostics => exact .error hDiagnostics
  | @ok declared again hDeclared =>
    have hRepeated := repeatedMaps_agree hDeclared
    simp only [bind, Except.bind, pure, Except.pure, throw, throwThe, MonadExceptOf.throw]
    generalize repeatedMaps declared = diagnostics at hRepeated
    generalize repeatedMaps again = later at hRepeated
    cases hRepeated with
    | nil => exact .ok (values_agree hDeclared)
    | cons hFirst hOthers => exact .error (.cons hFirst hOthers)

/-! ## Lexemes and sources -/

theorem Agree.map {α β : Type} {tokens others : List (Placed Token)} {a b : Except ParseError α}
    (h : Agree tokens others Eq a b) (f : α → β) : Agree tokens others Eq (a.map f) (b.map f) := by
  cases h with
  | ok hValues => exact .ok (congrArg f hValues)
  | error hDiagnostics => exact .error hDiagnostics

theorem ofSource_of_lexemes {source : String} {lexemes : List Lexeme} (h : lexemesOf source = .ok lexemes) :
    Model.ofSource source = (documentOf lexemes).map Model.ofDeclarations := by
  rw [Model.ofSource, h]
  cases hDocument : documentOf lexemes <;> simp [bind, Except.bind, hDocument, Except.map, pure, Except.pure]

theorem models_agree_of_meaning_eq {lexemes others : List Lexeme} (h : meaning lexemes = meaning others) :
    Agree (tokensOf lexemes) (tokensOf others) Eq ((documentOf lexemes).map Model.ofDeclarations)
        ((documentOf others).map Model.ofDeclarations) ∧
      ∀ {source text : String}, lexemesOf source = .ok lexemes → lexemesOf text = .ok others →
        Agree (tokensOf lexemes) (tokensOf others) Eq (Model.ofSource source) (Model.ofSource text) := by
  have hModels := (documentOf_agree h).map Model.ofDeclarations
  rw [documentOf_tokensOf, documentOf_tokensOf] at hModels
  refine ⟨hModels, fun hSource hText => ?_⟩
  rw [ofSource_of_lexemes hSource, ofSource_of_lexemes hText]
  exact hModels

/-- A relationship without its second context, with a comment and a blank. -/
def spacedMap : List Lexeme :=
  [⟨.token (.keyword .contextMap), .ofBounds 0 10⟩, ⟨.trivia (.blockComment " two "), .ofBounds 10 19⟩,
    ⟨.token (.symbol .leftBrace), .ofBounds 19 20⟩, ⟨.token (.name "A"), .ofBounds 20 21⟩,
    ⟨.trivia .blank, .ofBounds 21 22⟩, ⟨.token (.symbol .arrow), .ofBounds 22 24⟩,
    ⟨.token (.symbol .rightBrace), .ofBounds 24 25⟩]

def tightMap : List Lexeme :=
  [⟨.token (.keyword .contextMap), .ofBounds 0 10⟩, ⟨.token (.symbol .leftBrace), .ofBounds 10 11⟩,
    ⟨.token (.name "A"), .ofBounds 11 12⟩, ⟨.token (.symbol .arrow), .ofBounds 12 14⟩,
    ⟨.token (.symbol .rightBrace), .ofBounds 14 15⟩]

theorem models_agree_spacedMap :
    meaning spacedMap = meaning tightMap ∧
      Agree (tokensOf spacedMap) (tokensOf tightMap) Eq (Model.ofSource "ContextMap/* two */\x7bA ->\x7d")
        (Model.ofSource "ContextMap\x7bA->\x7d") := by
  have hMeaning : meaning spacedMap = meaning tightMap := rfl
  have hSpaced : lexemesOf "ContextMap/* two */\x7bA ->\x7d" = .ok spacedMap := by decide +kernel
  have hTight : lexemesOf "ContextMap\x7bA->\x7d" = .ok tightMap := by decide +kernel
  exact ⟨hMeaning, (models_agree_of_meaning_eq hMeaning).2 hSpaced hTight⟩

end DomainAtlas
