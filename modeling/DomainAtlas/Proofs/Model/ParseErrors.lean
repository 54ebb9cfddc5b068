import DomainAtlas.Proofs.Grammar.Places
import DomainAtlas.Proofs.Token.Scan
import DomainAtlas.Source

/-! # Parse errors are well placed

Whatever stage of reading a source fails, its diagnostics are errors with a code, each has one primary label, all labels
lie within the source, and the primary ones come in the order of the source.
-/
set_option autoImplicit false

namespace DomainAtlas

open Grammar

/-- Both ends are offsets of the source that do not fall inside a character. -/
structure Span.LiesIn (span : Span) (source : String) : Prop where
  start_le_stop : span.start ≤ span.stop
  stop_le : span.stop ≤ source.utf8ByteSize
  start : String.Pos.Raw.IsValid source ⟨span.start⟩
  stop : String.Pos.Raw.IsValid source ⟨span.stop⟩

structure Diagnostic.WellPlaced (source : String) (diagnostic : Diagnostic) : Prop where
  severity : diagnostic.severity = .error
  code : diagnostic.code.isSome
  primary : ∃ label, diagnostic.labels.filter (·.primary) = [label]
  within : ∀ label ∈ diagnostic.labels, label.span.LiesIn source

structure ParseError.WellPlaced (source : String) (error : ParseError) : Prop where
  some : error.diagnostics ≠ []
  each : ∀ diagnostic ∈ error.diagnostics, diagnostic.WellPlaced source
  ordered : (error.diagnostics.filterMap Diagnostic.primarySpan?).Pairwise fun a b => a.start < b.start

theorem Span.Within.liesIn {span : Span} {source : String} (h : span.Within source.toList) :
    span.LiesIn source where
  start_le_stop := span.start_le_stop
  stop_le := (isValid_of_offsetIn h.stop).le_rawEndPos
  start := isValid_of_offsetIn h.start
  stop := isValid_of_offsetIn h.stop

/-- An error with a code that marks `span`; what else it marks is secondary. -/
structure Diagnostic.Marks (cs : List Char) (diagnostic : Diagnostic) (span : Span) : Prop where
  severity : diagnostic.severity = .error
  code : diagnostic.code.isSome
  labels : ∃ message others, diagnostic.labels = ⟨span, message, true⟩ :: others ∧
    ∀ label ∈ others, label.primary = false ∧ label.span.Within cs
  within : span.Within cs

theorem Diagnostic.Marks.primarySpan? {cs : List Char} {diagnostic : Diagnostic} {span : Span}
    (h : diagnostic.Marks cs span) : diagnostic.primarySpan? = some span := by
  obtain ⟨message, others, hLabels, -⟩ := h.labels
  rw [Diagnostic.primarySpan?, hLabels]
  rfl

theorem Diagnostic.Marks.wellPlaced {source : String} {diagnostic : Diagnostic} {span : Span}
    (h : diagnostic.Marks source.toList span) : diagnostic.WellPlaced source := by
  obtain ⟨message, others, hLabels, hOthers⟩ := h.labels
  refine ⟨h.severity, h.code, ⟨⟨span, message, true⟩, ?_⟩, ?_⟩
  · rw [hLabels, List.filter_cons_of_pos rfl, List.filter_eq_nil_iff.mpr fun label hLabel => ?_]
    simp [(hOthers label hLabel).1]
  · rw [hLabels]
    exact List.forall_mem_cons.mpr ⟨h.within.liesIn, fun label hLabel => (hOthers label hLabel).2.liesIn⟩

/-- The diagnostics of one stage, each of which is about an item of its own. -/
theorem wellPlaced_map {α : Type} {source : String} {items : List α} {diagnostic : α → Diagnostic} {span : α → Span}
    (hSome : items ≠ []) (hMarks : ∀ a ∈ items, (diagnostic a).Marks source.toList (span a))
    (hOrdered : items.Pairwise fun a b => (span a).start < (span b).start) :
    ParseError.WellPlaced source ⟨items.map diagnostic⟩ where
  some := fun hNone => hSome (List.map_eq_nil_iff.mp hNone)
  each := List.forall_mem_map.mpr fun a ha => (hMarks a ha).wellPlaced
  ordered := by
    refine List.pairwise_filterMap.mpr (List.pairwise_map.mpr (hOrdered.imp_of_mem fun {a b} ha hb hLess => ?_))
    intro first hFirst later hLater
    rw [(hMarks a ha).primarySpan?] at hFirst
    rw [(hMarks b hb).primarySpan?] at hLater
    cases hFirst
    cases hLater
    exact hLess

/-! ## Stage by stage -/

theorem wellPlaced_of_lexemesOf {source : String} {error : ParseError} (h : lexemesOf source = .error error) :
    error.WellPlaced source := by
  have hDiagnostics : (lex 0 source.toList).filterMap Piece.diagnostic? =
      ((lex 0 source.toList).filterMap Piece.fault?).map fun placed => placed.value.diagnostic placed.span := by
    rw [List.map_filterMap]
    exact congrArg (List.filterMap · _) (funext Piece.diagnostic?_eq)
  have hLaid := laid_faults source.toList
  obtain ⟨hSome, hFound⟩ := lexemesOf_eq_error_iff.mp h
  rw [hDiagnostics] at hFound
  obtain ⟨diagnostics⟩ := error
  subst hFound
  have hOrdered := List.pairwise_map.mp hLaid.starts_increase
  refine wellPlaced_map (fun hNone => hSome (by rw [hNone, List.map_nil])) (fun placed hPlaced => ?_) hOrdered
  exact ⟨rfl, rfl, ⟨_, [], rfl, by simp⟩, hLaid.within _ (List.mem_map_of_mem hPlaced)⟩

theorem laid_of_lexemesOf {source : String} {lexemes : List Lexeme} (h : lexemesOf source = .ok lexemes) :
    Laid source.toList ((tokensOf lexemes).map (·.span)) := by
  obtain ⟨-, rfl⟩ := lexemesOf_eq_ok_iff.mp h
  exact laid_tokens source.toList

theorem wellPlaced_of_declarationsOf {source : String} {lexemes : List Lexeme} {error : ParseError}
    (hLaid : Laid source.toList ((tokensOf lexemes).map (·.span)))
    (h : declarationsOf lexemes = .error error) : error.WellPlaced source := by
  obtain ⟨hRests, hOrdered⟩ := faults_decrease (meaning lexemes)
  have hLength : ∀ mismatch ∈ faults (meaning lexemes), mismatch.rest.length ≤ (tokensOf lexemes).length :=
    fun mismatch hMismatch => by simpa [meaning] using (hRests mismatch hMismatch).1.length_le
  rw [declarationsOf_eq, diagnosticsAfter, List.nil_append] at h
  split at h
  · cases h
  · rename_i hSome
    cases h
    refine wellPlaced_map (fun hNone => hSome (by rw [hNone, List.map_nil])) (fun mismatch _ => ?_)
      (hOrdered.imp_of_mem fun {a _} ha _ hLess => place_lt hLaid hLess (hLength a ha))
    obtain ⟨hSeverity, hCode⟩ := severity_diagnostic (tokensOf lexemes) mismatch
    obtain ⟨message, hLabels⟩ := labels_diagnostic (tokensOf lexemes) mismatch
    exact ⟨hSeverity, hCode, ⟨message, [], hLabels, by simp⟩, within_place hLaid mismatch.rest⟩

theorem wellPlaced_repeatedMaps {source : String} {tokens : List (Placed Token)} {declared : List (Placed Declaration)}
    (hLaid : Laid source.toList (tokens.map (·.span))) (hDeclared : declarationsOf tokens = .ok declared)
    (hSome : repeatedMaps declared ≠ []) : ParseError.WellPlaced source ⟨repeatedMaps declared⟩ := by
  obtain ⟨hWithin, hOrdered⟩ := declarationsOf_spans hLaid hDeclared
  have hHeader : ∀ placed span, mapHeader? placed = some span → span = placed.span := by
    intro placed span hSpan
    unfold mapHeader? at hSpan
    split at hSpan
    · exact (Option.some.inj hSpan).symm
    · cases hSpan
  have hHeaders : ∀ span ∈ declared.filterMap mapHeader?, span.Within source.toList := by
    intro span hSpan
    obtain ⟨placed, hPlaced, hEq⟩ := List.mem_filterMap.mp hSpan
    rw [hHeader placed span hEq]
    exact hWithin placed hPlaced
  have hHeadersOrdered : (declared.filterMap mapHeader?).Pairwise fun a b => a.start < b.start := by
    refine List.pairwise_filterMap.mpr (hOrdered.imp fun {a b} hLess first hFirst later hLater => ?_)
    rw [hHeader a first hFirst, hHeader b later hLater]
    exact hLess
  unfold repeatedMaps at hSome ⊢
  split at hSome
  · exact absurd rfl hSome
  · rename_i first others hFirst
    rw [hFirst] at hHeaders hHeadersOrdered
    obtain ⟨hFirstWithin, hOthers⟩ := List.forall_mem_cons.mp hHeaders
    refine wellPlaced_map (fun hNone => hSome (by rw [hNone, List.map_nil])) (fun again hAgain => ?_)
      (List.pairwise_cons.mp hHeadersOrdered).2
    refine ⟨rfl, rfl, ⟨_, [_], rfl, ?_⟩, hOthers again hAgain⟩
    exact List.forall_mem_singleton.mpr ⟨rfl, hFirstWithin⟩

theorem ofSource_error_wellPlaced {source : String} {error : ParseError} (h : Model.ofSource source = .error error) :
    error.WellPlaced source := by
  cases hLexemes : lexemesOf source with
  | error found =>
    rw [Model.ofSource, hLexemes] at h
    cases h
    exact wellPlaced_of_lexemesOf hLexemes
  | ok lexemes =>
    have hLaid := laid_of_lexemesOf hLexemes
    cases hDeclared : declarationsOf lexemes with
    | error found =>
      simp only [Model.ofSource, hLexemes, documentOf, hDeclared, bind, Except.bind] at h
      cases h
      exact wellPlaced_of_declarationsOf hLaid hDeclared
    | ok declared =>
      cases hRepeated : repeatedMaps declared with
      | nil =>
        simp only [Model.ofSource, hLexemes, documentOf, hDeclared, hRepeated, bind, Except.bind, pure,
          Except.pure] at h
        cases h
      | cons diagnostic diagnostics =>
        simp only [Model.ofSource, hLexemes, documentOf, hDeclared, hRepeated, bind, Except.bind, throw,
          throwThe, MonadExceptOf.throw] at h
        cases h
        rw [← hRepeated]
        refine wellPlaced_repeatedMaps hLaid ((declarationsOf_tokensOf lexemes).trans hDeclared) ?_
        rw [hRepeated]
        exact List.cons_ne_nil diagnostic diagnostics

/-- A relationship without its second context, and a bounded context that breaks off. -/
def twoFaults : String := "/* é */ ContextMap \x7b A -> \x7d BoundedContext"

theorem ofSource_error_wellPlaced_twoFaults :
    ∃ error, Model.ofSource twoFaults = .error error ∧ error.WellPlaced twoFaults ∧
      error.diagnostics.map Diagnostic.primarySpan? = [some (.ofBounds 27 28), some (.emptyAt 43)] := by
  have hFails : Model.ofSource twoFaults = .error ⟨[
      { severity := .error
        code := some .unexpectedToken
        message := "unexpected token `\x7d`"
        labels := [⟨.ofBounds 27 28, "expected name", true⟩]
        help := some "while parsing context map" },
      { severity := .error
        code := some .incompleteInput
        message := "unexpected end of input"
        labels := [⟨.emptyAt 43, "expected name", true⟩]
        help := some "while parsing bounded context" }]⟩ := by
    decide +kernel
  exact ⟨_, hFails, ofSource_error_wellPlaced hFails, rfl⟩

end DomainAtlas
