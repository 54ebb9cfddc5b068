import DomainAtlas.Proofs.Grammar.Incomplete
import DomainAtlas.Proofs.Model.OfSource

/-! # Reports on documents that break off

The beginning of a document that is no document itself yields one diagnostic. As a rule it says that the input is
incomplete and points just behind the last token; where a reader has given tokens back, it says instead that a token is
unexpected, and points at one that the document has at that place.
-/
set_option autoImplicit false

namespace DomainAtlas

open Grammar

/-! ## Where the input ends -/

theorem diagnostic_of_ranOut {tokens : List (Placed Token)} {last : Placed Token} {mismatch : Mismatch Token}
    (h : mismatch.RanOut) (hLast : tokens.getLast? = some last) :
    (mismatch.diagnostic tokens).code = some .incompleteInput ∧
      (mismatch.diagnostic tokens).primarySpan? = some (.emptyAt last.span.stop) := by
  obtain ⟨complaint, rest⟩ := mismatch
  obtain ⟨rfl, expected, rfl⟩ := h
  simp [Mismatch.diagnostic, placedRest, endSpan, hLast, Diagnostic.primarySpan?]

theorem diagnostic_of_misplaced {tokens : List (Placed Token)} {mismatch : Mismatch Token} (h : mismatch.Misplaced)
    (hRest : mismatch.rest <:+ tokens.map (·.value)) :
    (mismatch.diagnostic tokens).code = some .unexpectedToken ∧
      ∃ t ∈ tokens, (mismatch.diagnostic tokens).primarySpan? = some t.span := by
  obtain ⟨complaint, rest⟩ := mismatch
  obtain ⟨hSome, expected, rfl⟩ := h
  obtain ⟨used, hUsed⟩ := hRest
  obtain ⟨done, left, rfl, -, rfl⟩ := List.map_eq_append_iff.mp hUsed.symm
  obtain ⟨t, others, rfl⟩ := List.exists_cons_of_ne_nil fun hNil : left = [] => hSome (by rw [hNil, List.map_nil])
  refine ⟨?_, t, List.mem_append_right done List.mem_cons_self, ?_⟩
  · simp only [Mismatch.diagnostic, placedRest_append, tokensOf_tokens]
    rfl
  · simp only [Mismatch.diagnostic, placedRest_append, tokensOf_tokens]
    rfl

/-! ## Beginnings of documents -/

theorem declarationsOf_brokenOff {front back : List Lexeme} {declared : List (Placed Declaration)} {error : ParseError}
    (hWhole : declarationsOf (front ++ back) = .ok declared) (hFront : declarationsOf front = .error error) :
    ∃ diagnostic last, error.diagnostics = [diagnostic] ∧ (tokensOf front).getLast? = some last ∧
      (¬ Phrase.stalledDocument (meaning front) () →
        diagnostic.code = some .incompleteInput ∧ diagnostic.primarySpan? = some (.emptyAt last.span.stop)) ∧
      (Phrase.stalledDocument (meaning front) () →
        diagnostic.code = some .unexpectedToken ∧ ∃ t ∈ tokensOf front, diagnostic.primarySpan? = some t.span) := by
  have hBroken : ∀ tree, ¬ Phrase.document (meaning front) tree := by
    intro tree hTree
    obtain ⟨again, hAgain, -⟩ := declarationsOf_of_document hTree
    rw [hFront] at hAgain
    cases hAgain
  have hDocument := document_of_declarationsOf hWhole
  obtain ⟨mismatch, hFaults, hRest, hKind⟩ := breaksOff_of_document hDocument (meaning_append front back).symm hBroken
  have hSome : tokensOf front ≠ [] := fun hNone => hBroken [] (by rw [meaning, hNone]; exact .nil)
  have hError : error = ⟨[mismatch.diagnostic (tokensOf front)]⟩ := by
    rw [declarationsOf_eq, diagnosticsAfter, hFaults] at hFront
    exact (Except.error.inj hFront).symm
  subst hError
  refine ⟨_, _, rfl, List.getLast?_eq_some_getLast hSome, fun hGoesOn => ?_, fun hStall => ?_⟩
  · rcases hKind with ⟨hStall, -⟩ | ⟨-, hEnd⟩
    · exact absurd hStall hGoesOn
    · exact diagnostic_of_ranOut hEnd (List.getLast?_eq_some_getLast hSome)
  · rcases hKind with ⟨-, hEarly⟩ | ⟨hGoesOn, -⟩
    · exact diagnostic_of_misplaced hEarly hRest
    · exact absurd hStall hGoesOn

/-- An entity with an empty body in an aggregate. -/
def nestedEntity : List Lexeme :=
  [⟨.token (.keyword .boundedContext), .ofBounds 0 14⟩, ⟨.trivia .blank, .ofBounds 14 15⟩,
    ⟨.token (.name "A"), .ofBounds 15 16⟩, ⟨.token (.symbol .leftBrace), .ofBounds 16 17⟩,
    ⟨.token (.keyword .aggregate), .ofBounds 17 26⟩, ⟨.trivia .blank, .ofBounds 26 27⟩,
    ⟨.token (.name "B"), .ofBounds 27 28⟩, ⟨.token (.symbol .leftBrace), .ofBounds 28 29⟩,
    ⟨.token (.keyword .entity), .ofBounds 29 35⟩, ⟨.trivia .blank, .ofBounds 35 36⟩,
    ⟨.token (.name "C"), .ofBounds 36 37⟩, ⟨.token (.symbol .leftBrace), .ofBounds 37 38⟩,
    ⟨.token (.symbol .rightBrace), .ofBounds 38 39⟩, ⟨.token (.symbol .rightBrace), .ofBounds 39 40⟩,
    ⟨.token (.symbol .rightBrace), .ofBounds 40 41⟩]

theorem declarationsOf_nestedEntity : declarationsOf nestedEntity =
    .ok [⟨.boundedContext
      { name := "A", items := [.aggregate { name := "B", items := [.entity { name := "C", items := [] }] }] },
      .ofBounds 0 16⟩] := by
  decide +kernel

/-- The braces of an aggregate are missed, but not those of an entity. -/
theorem declarationsOf_take_nestedEntity :
    declarationsOf (nestedEntity.take 8) = .error ⟨[
        { severity := .error
          code := some .incompleteInput
          message := "unexpected end of input"
          labels := [⟨.emptyAt 29, "expected `\x7d`", true⟩]
          help := some "while parsing bounded context" }]⟩ ∧
      declarationsOf (nestedEntity.take 12) = .error ⟨[
        { severity := .error
          code := some .unexpectedToken
          message := "unexpected token `\x7b`"
          labels := [⟨.ofBounds 37 38, "expected `\x7d`", true⟩]
          help := some "while parsing bounded context" }]⟩ := by
  decide +kernel

theorem declarationsOf_brokenOff_nestedEntity :
    (∃ declared, declarationsOf nestedEntity = .ok declared) ∧
      (∃ diagnostic, declarationsOf (nestedEntity.take 8) = .error ⟨[diagnostic]⟩ ∧
        diagnostic.code = some .incompleteInput ∧ diagnostic.primarySpan? = some (.emptyAt 29) ∧
        ¬ Phrase.stalledDocument (meaning (nestedEntity.take 8)) ()) ∧
      ∃ diagnostic, declarationsOf (nestedEntity.take 12) = .error ⟨[diagnostic]⟩ ∧
        diagnostic.code = some .unexpectedToken ∧ diagnostic.primarySpan? = some (.ofBounds 37 38) ∧
        Phrase.stalledDocument (meaning (nestedEntity.take 12)) () := by
  obtain ⟨hAggregate, hEntity⟩ := declarationsOf_take_nestedEntity
  obtain ⟨declared, hWhole⟩ : ∃ declared, declarationsOf nestedEntity = .ok declared :=
    ⟨_, declarationsOf_nestedEntity⟩
  have hCut (n : Nat) : declarationsOf (nestedEntity.take n ++ nestedEntity.drop n) = .ok declared := by
    rwa [List.take_append_drop]
  obtain ⟨_, _, hOne, -, -, hStalled⟩ := declarationsOf_brokenOff (hCut 8) hAggregate
  obtain ⟨_, _, hOther, -, hIncomplete, -⟩ := declarationsOf_brokenOff (hCut 12) hEntity
  cases hOne
  cases hOther
  refine ⟨⟨declared, hWhole⟩, ⟨_, hAggregate, rfl, rfl, fun hStall => ?_⟩,
    ⟨_, hEntity, rfl, rfl, Classical.byContradiction fun hGoesOn => ?_⟩⟩
  · cases (hStalled hStall).1
  · cases (hIncomplete hGoesOn).1

theorem not_incomplete_nestedEntity :
    ¬ ∀ (source : String) (front back : List Lexeme) (declared : List (Placed Declaration)) (error : ParseError),
      lexemesOf source = .ok (front ++ back) → declarationsOf (front ++ back) = .ok declared →
      declarationsOf front = .error error →
      ∃ diagnostic last, error.diagnostics = [diagnostic] ∧ (tokensOf front).getLast? = some last ∧
        diagnostic.code = some .incompleteInput ∧ diagnostic.primarySpan? = some (.emptyAt last.span.stop) := by
  intro h
  have hSource : lexemesOf "BoundedContext A\x7bAggregate B\x7bEntity C\x7b\x7d\x7d\x7d" = .ok nestedEntity := by
    decide +kernel
  obtain ⟨diagnostic, last, hDiagnostics, -, hCode, -⟩ := h _ (nestedEntity.take 12) (nestedEntity.drop 12) _ _
    (by rwa [List.take_append_drop]) (by rw [List.take_append_drop]; exact declarationsOf_nestedEntity)
    declarationsOf_take_nestedEntity.2
  cases hDiagnostics
  cases hCode

end DomainAtlas
