import DomainAtlas.Proofs.Grammar.Recovery
import Mathlib.Data.List.Forall2
import Mathlib.Data.List.TakeWhile

/-! # One diagnostic for each bad part

The lexemes of a document are cut before each keyword that opens a declaration. A part is good if it is one whole
declaration, or trivia only. `Reports` says that diagnostics are those of the bad parts: one for each, in order. It
points into the part or at the first token of the next.
-/
set_option autoImplicit false

namespace DomainAtlas

open Grammar

/-! ## Cutting -/

def Lexeme.opens (lexeme : Lexeme) : Bool :=
  lexeme.token?.any fun t => opensDeclaration t.value

variable {α : Type}

def untilOpened (opens : α → Bool) (values : List α) : List α :=
  values.takeWhile fun a => !opens a

/-- A part from each element that opens something to the next such element. -/
def partsFrom (opens : α → Bool) : List α → List (List α)
  | [] => []
  | a :: others =>
    if opens a then (a :: untilOpened opens others) :: partsFrom opens others else partsFrom opens others

theorem untilOpened_append_parts (opens : α → Bool) (values : List α) :
    untilOpened opens values ++ (partsFrom opens values).flatten = values := by
  induction values with
  | nil => rfl
  | cons a others ih =>
    rw [untilOpened] at ih ⊢
    cases hOpens : opens a <;> simp [partsFrom, untilOpened, hOpens, ih]

theorem opens_eq_false_of_mem {opens : α → Bool} {values : List α} {a : α} (h : a ∈ untilOpened opens values) :
    opens a = false := by
  simpa using List.mem_takeWhile_imp h

theorem exists_of_mem_parts {opens : α → Bool} {values part : List α} (h : part ∈ partsFrom opens values) :
    ∃ a others, opens a = true ∧ part = a :: untilOpened opens others := by
  induction values with
  | nil => cases h
  | cons a others ih =>
    rw [partsFrom] at h
    split at h
    · rename_i hOpens
      rcases List.mem_cons.mp h with rfl | hOthers
      · exact ⟨a, others, hOpens, rfl⟩
      · exact ih hOthers
    · exact ih h

/-- All parts, what stands before the first keyword included. -/
def cut (lexemes : List Lexeme) : List (List Lexeme) :=
  untilOpened Lexeme.opens lexemes :: partsFrom Lexeme.opens lexemes

theorem forall_dropLast_cons {P : α → Prop} {a : α} {others : List α} (h : ∀ b ∈ (a :: others).dropLast, P b) :
    (others ≠ [] → P a) ∧ ∀ b ∈ others.dropLast, P b := by
  cases others with
  | nil => simp
  | cons b others =>
    obtain ⟨hFirst, hOthers⟩ := List.forall_mem_cons.mp h
    exact ⟨fun _ => hFirst, hOthers⟩

/-! ## Good and bad parts -/

def meaning (lexemes : List Lexeme) : List Token :=
  (tokensOf lexemes).map (·.value)

/-- One whole declaration, or trivia only, which a part that starts with a keyword never is. -/
def Good (part : List Lexeme) : Prop :=
  meaning part = [] ∨ ∃ value, Phrase.declaration (meaning part) value

/-- A token of the part, the first one of the next part, or the end of the part when there is no other. -/
inductive Near (part next : List (Placed Token)) : Span → Prop
  | inside {t : Placed Token} (h : t ∈ part) : Near part next t.span
  | following {t : Placed Token} (h : next.head? = some t) : Near part next t.span
  | atEnd {t : Placed Token} (h : part.getLast? = some t) (hNext : next = []) :
      Near part next (.emptyAt t.span.stop)

/-- The diagnostics are those of the bad parts, one for each, in order. -/
inductive Reports : List (List Lexeme) → List Diagnostic → Prop
  | nil : Reports [] []
  | good {part : List Lexeme} {parts : List (List Lexeme)} {diagnostics : List Diagnostic} (hGood : Good part)
      (hParts : Reports parts diagnostics) : Reports (part :: parts) diagnostics
  | bad {part : List Lexeme} {parts : List (List Lexeme)} {diagnostic : Diagnostic} {diagnostics : List Diagnostic}
      {span : Span} (hBad : ¬ Good part) (hSpan : diagnostic.primarySpan? = some span)
      (hNear : Near (tokensOf part) (tokensOf (parts.headD [])) span) (hParts : Reports parts diagnostics) :
      Reports (part :: parts) (diagnostic :: diagnostics)

/-! ## Where a diagnostic points -/

theorem placedRest_append (front back : List (Placed Token)) :
    placedRest (front ++ back) (back.map (·.value)) = back := by
  simp [placedRest]

theorem primarySpan_diagnostic (tokens : List (Placed Token)) (mismatch : Mismatch Token) :
    (mismatch.diagnostic tokens).primarySpan? =
      some (((placedRest tokens mismatch.rest).head?.map (·.span)).getD (endSpan tokens)) := by
  obtain ⟨complaint, rest⟩ := mismatch
  rw [Mismatch.diagnostic, tokensOf_tokens]
  cases complaint with
  | nestedCollection => rfl
  | unexpected expected => cases (placedRest tokens rest).head? <;> rfl

theorem endSpan_append {part : List (Placed Token)} {last : Placed Token} (h : part.getLast? = some last)
    (front : List (Placed Token)) : endSpan (front ++ part) = .emptyAt last.span.stop := by
  simp [endSpan, List.getLast?_append, h]

/-- A mismatch leaves `left` of a part. -/
theorem near_place {done left : List (Placed Token)} (hSome : done ++ left ≠ []) (front next : List (Placed Token)) :
    Near (done ++ left) next
      (((left ++ next).head?.map (·.span)).getD (endSpan (front ++ (done ++ left ++ next)))) := by
  cases left with
  | cons t others => exact .inside (List.mem_append_right done List.mem_cons_self)
  | nil =>
    cases next with
    | cons t others => exact .following rfl
    | nil =>
      have hLast := List.getLast?_eq_some_getLast hSome
      rw [List.append_nil (done ++ []), endSpan_append hLast]
      exact .atEnd hLast rfl

theorem near_diagnostic {part : List (Placed Token)} {mismatch : Mismatch Token} (hSome : part ≠ [])
    (hRest : mismatch.rest <:+ part.map (·.value)) (front next : List (Placed Token)) :
    ∃ span, ((mismatch.before (next.map (·.value))).diagnostic (front ++ (part ++ next))).primarySpan? = some span ∧
      Near part next span := by
  obtain ⟨used, hUsed⟩ := hRest
  obtain ⟨done, left, rfl, -, hLeft⟩ := List.map_eq_append_iff.mp hUsed.symm
  have hPlaced : placedRest (front ++ (done ++ left ++ next)) (mismatch.rest ++ next.map (·.value)) =
      left ++ next := by
    rw [← hLeft, ← List.map_append, List.append_assoc, ← List.append_assoc]
    exact placedRest_append _ _
  refine ⟨_, primarySpan_diagnostic _ _, ?_⟩
  rw [Mismatch.before, hPlaced]
  exact near_place hSome front next

/-! ## Part by part -/

theorem tokensOf_append (lexemes others : List Lexeme) :
    tokensOf (lexemes ++ others) = tokensOf lexemes ++ tokensOf others :=
  List.filterMap_append

theorem meaning_append (lexemes others : List Lexeme) :
    meaning (lexemes ++ others) = meaning lexemes ++ meaning others := by
  rw [meaning, tokensOf_append, List.map_append, meaning, meaning]

/-- A part that starts with a keyword that opens a declaration and has no other. -/
def Opened (part : List Lexeme) : Prop :=
  ∃ t inner, tokensOf part = t :: inner ∧ opensDeclaration t.value = true ∧ Interior (inner.map (·.value))

theorem interior_untilOpened (lexemes : List Lexeme) : Interior (meaning (untilOpened Lexeme.opens lexemes)) := by
  intro t ht
  obtain ⟨placed, hPlaced, rfl⟩ := List.mem_map.mp ht
  obtain ⟨lexeme, hLexeme, hToken⟩ := List.mem_filterMap.mp hPlaced
  simpa [Lexeme.opens, hToken] using opens_eq_false_of_mem hLexeme

theorem opened_of_mem_parts {lexemes part : List Lexeme} (h : part ∈ partsFrom Lexeme.opens lexemes) :
    Opened part := by
  obtain ⟨lexeme, others, hOpens, rfl⟩ := exists_of_mem_parts h
  obtain ⟨t, hToken, hValue⟩ := (Option.any_eq_true _ _).mp hOpens
  refine ⟨t, tokensOf (untilOpened Lexeme.opens others), ?_, hValue, interior_untilOpened others⟩
  rw [tokensOf, List.filterMap_cons_some hToken, tokensOf]

theorem Opened.interior {part : List Lexeme} (h : Opened part) : Interior (meaning part).tail := by
  obtain ⟨t, inner, hTokens, -, hInner⟩ := h
  rw [meaning, hTokens]
  exact hInner

theorem Opened.meaning_ne_nil {part : List Lexeme} (h : Opened part) : meaning part ≠ [] := by
  obtain ⟨t, inner, hTokens, -, -⟩ := h
  simp [meaning, hTokens]

section

variable {parts : List (List Lexeme)} (hParts : ∀ part ∈ parts, Opened part)

include hParts

/-- What follows a part starts as the next part does. -/
theorem head?_flatten_parts : (tokensOf parts.flatten).head? = (tokensOf (parts.headD [])).head? := by
  cases parts with
  | nil => rfl
  | cons part others =>
    obtain ⟨t, inner, hTokens, -, -⟩ := hParts part List.mem_cons_self
    rw [List.flatten_cons, tokensOf_append, List.headD_cons, hTokens]
    rfl

theorem boundary_parts : Boundary (meaning parts.flatten) := by
  intro t ht
  rw [meaning, List.head?_map, head?_flatten_parts hParts] at ht
  cases parts with
  | nil => cases ht
  | cons part others =>
    obtain ⟨u, inner, hTokens, hOpens, -⟩ := hParts part List.mem_cons_self
    rw [List.headD_cons, hTokens] at ht
    cases ht
    exact hOpens

end

/-- The diagnostics for what goes wrong in `lexemes`, which come after `front`. -/
def diagnosticsAfter (front : List (Placed Token)) (lexemes : List Lexeme) : List Diagnostic :=
  (faults (meaning lexemes)).map (Mismatch.diagnostic (front ++ tokensOf lexemes))

theorem Near.of_head? {part next other : List (Placed Token)} {span : Span} (h : Near part next span)
    (hHead : next.head? = other.head?) : Near part other span := by
  cases h with
  | inside ht => exact .inside ht
  | following ht => exact .following (hHead ▸ ht)
  | atEnd hLast hNext =>
    rw [hNext] at hHead
    exact .atEnd hLast (List.head?_eq_none_iff.mp hHead.symm)

theorem reports_cons {part : List Lexeme} {parts : List (List Lexeme)} {front : List (Placed Token)}
    (hPart : Interior (meaning part).tail) (hParts : ∀ other ∈ parts, Opened other)
    (hTyped : parts ≠ [] → ¬ Phrase.untypedMap (meaning part) ())
    (h : Reports parts (diagnosticsAfter (front ++ tokensOf part) parts.flatten)) :
    Reports (part :: parts) (diagnosticsAfter front (part ++ parts.flatten)) := by
  have hFaults : faults (meaning part ++ meaning parts.flatten) =
      (faults (meaning part)).map (Mismatch.before (meaning parts.flatten)) ++ faults (meaning parts.flatten) := by
    refine faults_append hPart (boundary_parts hParts) fun hNext => hTyped ?_
    rintro rfl
    exact hNext rfl
  rw [diagnosticsAfter, List.append_assoc, ← tokensOf_append] at h
  rw [diagnosticsAfter, meaning_append, hFaults, List.map_append, List.map_map]
  by_cases hGood : Good part
  · have hNone : faults (meaning part) = [] := by
      rcases hGood with hNil | ⟨value, hValue⟩
      · rw [hNil, faults, attempts, List.filterMap_nil]
      · exact faults_of_declaration hValue
    rw [hNone]
    exact .good hGood h
  · have hSome : meaning part ≠ [] := fun hNil => hGood (.inl hNil)
    obtain ⟨mismatch, hMismatch, hRest⟩ :=
      faults_eq_singleton hPart hSome fun value hValue => hGood (.inr ⟨value, hValue⟩)
    obtain ⟨span, hSpan, hNear⟩ :=
      near_diagnostic (fun hNil => hSome (by rw [meaning, hNil, List.map_nil])) hRest front (tokensOf parts.flatten)
    rw [hMismatch, tokensOf_append]
    rw [tokensOf_append] at h
    exact .bad hGood hSpan (hNear.of_head? (head?_flatten_parts hParts)) h

theorem reports_parts {parts : List (List Lexeme)} (hParts : ∀ part ∈ parts, Opened part)
    (hTyped : ∀ part ∈ parts.dropLast, ¬ Phrase.untypedMap (meaning part) ()) (front : List (Placed Token)) :
    Reports parts (diagnosticsAfter front parts.flatten) := by
  induction parts generalizing front with
  | nil =>
    have hNone : faults (meaning []) = [] := by simp [meaning, tokensOf, faults, attempts]
    rw [diagnosticsAfter, List.flatten_nil, hNone]
    exact .nil
  | cons part others ih =>
    obtain ⟨hPart, hOthers⟩ := List.forall_mem_cons.mp hParts
    obtain ⟨hTypedPart, hTypedOthers⟩ := forall_dropLast_cons hTyped
    exact reports_cons hPart.interior hOthers hTypedPart (ih hOthers hTypedOthers _)

/-! ## Whole declarations -/

theorem headerLength_pos (value : Declaration) : 0 < value.headerLength := by
  cases value with
  | contextMap decl =>
    rw [Declaration.headerLength]
    split <;> decide
  | boundedContext decl => exact Nat.two_pos

theorem headerLength_le {tokens : List Token} {value : Declaration} (h : Phrase.declaration tokens value) :
    value.headerLength ≤ tokens.length := by
  rcases h with h | h
  · obtain ⟨decl, ⟨_, _, _, rfl, hKeyword, _, _, name, rfl, hName, hItems⟩, rfl⟩ := Phrase.map_iff.mp h
    obtain ⟨items, -, rfl⟩ := Phrase.map_iff.mp hItems
    rw [Phrase.keyword_iff.mp hKeyword]
    cases hName with
    | none => simp [Declaration.headerLength]
    | some hName =>
      rw [Phrase.name_iff.mp hName]
      simp [Declaration.headerLength]
  · obtain ⟨decl, ⟨_, _, _, rfl, hKeyword, _, _, name, rfl, hName, hItems⟩, rfl⟩ := Phrase.map_iff.mp h
    rw [Phrase.keyword_iff.mp hKeyword, Phrase.name_iff.mp hName]
    simp [Declaration.headerLength]

/-- The header of a declaration lies within its part. -/
theorem headerSpan_append {part : List (Placed Token)} {value : Declaration}
    (h : value.headerLength ≤ part.length) (front next : List (Placed Token)) :
    headerSpan (front ++ (part ++ next)) ((part ++ next).map (·.value)) value =
      headerSpan part (part.map (·.value)) value := by
  have hAlone : placedRest part (part.map (·.value)) = part := placedRest_append [] part
  rw [headerSpan, headerSpan, placedRest_append, hAlone, tokensOf_tokens, tokensOf_tokens,
    List.take_append_of_le_length h]
  cases hHeader : part.take value.headerLength with
  | nil =>
    have hPos := headerLength_pos value
    have hLength := congrArg List.length hHeader
    rw [List.length_take, List.length_nil] at hLength
    omega
  | cons t others => rfl

theorem declarationsOf_of_declaration {part : List (Placed Token)} {value : Declaration}
    (h : Phrase.declaration (part.map (·.value)) value) :
    declarationsOf part = .ok [⟨value, headerSpan part (part.map (·.value)) value⟩] := by
  have hAttempts := attempts_append_of_declaration h []
  rw [List.append_nil, attempts] at hAttempts
  rw [declarationsOf, hAttempts]
  rfl

/-- The part is a phrase of the declaration, which is placed as in the part alone. -/
def Declares (part : List Lexeme) (placed : Placed Declaration) : Prop :=
  Phrase.declaration (meaning part) placed.value ∧ declarationsOf part = .ok [placed]

theorem declares_parts {parts : List (List Lexeme)}
    (h : ∀ part ∈ parts, ∃ value, Phrase.declaration (meaning part) value) (front : List (Placed Token)) :
    List.Forall₂ Declares parts ((attempts (meaning parts.flatten)).filterMap
      (Attempt.declaration? (front ++ tokensOf parts.flatten))) := by
  induction parts generalizing front with
  | nil =>
    have hNone : attempts (meaning []) = [] := by simp [meaning, tokensOf, attempts]
    rw [List.flatten_nil, hNone]
    exact .nil
  | cons part others ih =>
    obtain ⟨⟨value, hValue⟩, hOthers⟩ := List.forall_mem_cons.mp h
    have hLength : value.headerLength ≤ (tokensOf part).length := by
      simpa [meaning] using headerLength_le hValue
    have hSpan := headerSpan_append hLength front (tokensOf others.flatten)
    rw [List.map_append] at hSpan
    rw [List.flatten_cons, meaning_append, attempts_append_of_declaration hValue, tokensOf_append]
    refine .cons ⟨hValue, ?_⟩ ?_
    · rw [← declarationsOf_tokensOf, declarationsOf_of_declaration hValue, ← hSpan]
      rfl
    · rw [← List.append_assoc]
      exact ih hOthers (front ++ tokensOf part)

/-! ## Whole documents -/

theorem Reports.eq_nil {parts : List (List Lexeme)} {diagnostics : List Diagnostic} (h : Reports parts diagnostics)
    (hGood : ∀ part ∈ parts, Good part) : diagnostics = [] := by
  induction h with
  | nil => rfl
  | good _ _ ih => exact ih fun part hPart => hGood part (List.mem_cons_of_mem _ hPart)
  | bad hBad => exact absurd (hGood _ List.mem_cons_self) hBad

theorem declarationsOf_eq (lexemes : List Lexeme) :
    declarationsOf lexemes =
      match diagnosticsAfter [] lexemes with
      | [] => .ok ((attempts (meaning lexemes)).filterMap (Attempt.declaration? (tokensOf lexemes)))
      | diagnostics => .error ⟨diagnostics⟩ := by
  have hDiagnostic : Attempt.diagnostic? (tokensOf lexemes) =
      fun attempt => attempt.mismatch?.map (Mismatch.diagnostic (tokensOf lexemes)) := by
    funext attempt
    obtain ⟨start, result⟩ := attempt
    cases result <;> rfl
  rw [← declarationsOf_tokensOf, declarationsOf, hDiagnostic, ← List.map_filterMap]
  rfl

theorem not_declaration_of_interior {tokens : List Token} {value : Declaration} (h : Interior tokens) :
    ¬ Phrase.declaration tokens value := by
  intro hDeclaration
  obtain ⟨t, others, rfl, hOpens⟩ := Item.begins item_declaration tokens value hDeclaration
  have hInner := h t List.mem_cons_self
  rw [opensDeclaration_iff.mpr hOpens] at hInner
  cases hInner

/-- Where the type of a context map is due the keyword of the next part would be taken for it, so no part breaks off
there before another. -/
theorem declarationsOf_reports (lexemes : List Lexeme)
    (hTyped : ∀ part ∈ (cut lexemes).dropLast, ¬ Phrase.untypedMap (meaning part) ()) :
    ∃ diagnostics, Reports (cut lexemes) diagnostics ∧
      (diagnostics ≠ [] → declarationsOf lexemes = .error ⟨diagnostics⟩) ∧
      ((∀ part ∈ cut lexemes, Good part) → ∃ declared, declarationsOf lexemes = .ok declared ∧
        List.Forall₂ Declares (cut lexemes).tail declared) := by
  have hLexemes := untilOpened_append_parts Lexeme.opens lexemes
  have hLeading := interior_untilOpened lexemes
  have hParts : ∀ part ∈ partsFrom Lexeme.opens lexemes, Opened part := fun part => opened_of_mem_parts
  unfold cut at hTyped ⊢
  generalize untilOpened Lexeme.opens lexemes = leading at *
  generalize partsFrom Lexeme.opens lexemes = parts at *
  obtain ⟨hTypedLeading, hTypedParts⟩ := forall_dropLast_cons hTyped
  have hReports : Reports (leading :: parts) (diagnosticsAfter [] lexemes) := by
    have hRest := reports_parts hParts hTypedParts ([] ++ tokensOf leading)
    rw [← hLexemes]
    exact reports_cons (hLeading.suffix (List.tail_suffix _)) hParts hTypedLeading hRest
  refine ⟨diagnosticsAfter [] lexemes, hReports, fun hSome => ?_, fun hGood => ?_⟩
  · rw [declarationsOf_eq]
    split
    · rename_i hNone
      exact absurd hNone hSome
    · rfl
  · obtain ⟨hFirst, hOthers⟩ := List.forall_mem_cons.mp hGood
    have hTrivia : meaning leading = [] :=
      hFirst.resolve_right fun ⟨value, hValue⟩ => not_declaration_of_interior hLeading hValue
    have hEach : ∀ part ∈ parts, ∃ value, Phrase.declaration (meaning part) value := fun part hPart =>
      (hOthers part hPart).resolve_left (hParts part hPart).meaning_ne_nil
    refine ⟨_, by rw [declarationsOf_eq, hReports.eq_nil hGood], ?_⟩
    have hDeclares := declares_parts hEach (tokensOf leading)
    rw [← tokensOf_append, hLexemes] at hDeclares
    rw [← hLexemes, meaning_append, hTrivia, List.nil_append, hLexemes]
    exact hDeclares

/-- A stray brace, a context map without an end, and a bounded context. -/
def unclosedMap : List Lexeme :=
  [⟨.token (.symbol .rightBrace), .ofBounds 0 1⟩, ⟨.trivia .newline, .ofBounds 1 2⟩,
    ⟨.token (.keyword .contextMap), .ofBounds 2 12⟩, ⟨.trivia .blank, .ofBounds 12 13⟩,
    ⟨.token (.symbol .leftBrace), .ofBounds 13 14⟩, ⟨.trivia .newline, .ofBounds 14 15⟩,
    ⟨.token (.keyword .boundedContext), .ofBounds 15 29⟩, ⟨.trivia .blank, .ofBounds 29 30⟩,
    ⟨.token (.name "Sales"), .ofBounds 30 35⟩, ⟨.token (.symbol .leftBrace), .ofBounds 35 36⟩,
    ⟨.token (.symbol .rightBrace), .ofBounds 36 37⟩]

theorem declarationsOf_unclosedMap :
    (∀ part ∈ (cut unclosedMap).dropLast, ¬ Phrase.untypedMap (meaning part) ()) ∧
      ∃ diagnostics, declarationsOf unclosedMap = .error ⟨diagnostics⟩ ∧
        Reports [unclosedMap.take 2, (unclosedMap.drop 2).take 4, unclosedMap.drop 6] diagnostics := by
  have hTyped : ∀ part ∈ (cut unclosedMap).dropLast, ¬ Phrase.untypedMap (meaning part) () := by
    intro part hPart hUntyped
    obtain ⟨inner, hMeaning⟩ := exists_of_untypedMap hUntyped
    have hShort : ∀ part ∈ (cut unclosedMap).dropLast, (meaning part).length ≤ 2 := by decide
    simpa [hMeaning] using hShort part hPart
  refine ⟨hTyped, ?_⟩
  obtain ⟨diagnostics, hReports, hError, -⟩ := declarationsOf_reports unclosedMap hTyped
  have hBrace : ¬ Good (unclosedMap.take 2) := by
    rintro (hNone | ⟨value, hValue⟩)
    · cases hNone
    · exact not_declaration_of_interior (interior_untilOpened unclosedMap) hValue
  refine ⟨diagnostics, hError ?_, hReports⟩
  rintro rfl
  cases hReports with
  | good hGood => exact hBrace hGood

example : (diagnosticsAfter [] unclosedMap).map Diagnostic.primarySpan? =
    [some (.ofBounds 0 1), some (.ofBounds 15 29)] := by
  decide +kernel

end DomainAtlas
