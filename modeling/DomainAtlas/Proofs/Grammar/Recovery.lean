import DomainAtlas.Proofs.Grammar.Boundaries
import DomainAtlas.Proofs.Grammar.Documents

/-! # Recovery meets the next declaration

Cut before each keyword that opens a declaration, the tokens of a document fall into parts, and each part is tried as
if it stood alone: what is wrong with one neither reaches the next nor hides it. A part that is not one whole
declaration goes wrong exactly once.
-/
set_option autoImplicit false

namespace DomainAtlas

open Grammar

/-- Both what was read and what was left over are followed by `next` too. -/
def Attempt.before (next : List Token) (attempt : Attempt Token) : Attempt Token :=
  ⟨attempt.start ++ next, attempt.result.mapError (Mismatch.before next)⟩

def Attempt.mismatch? (attempt : Attempt Token) : Option (Mismatch Token) :=
  match attempt.result with
  | .ok _ => none
  | .error mismatch => some mismatch

/-- What goes wrong when `tokens` are read. -/
def faults (tokens : List Token) : List (Mismatch Token) :=
  (attempts tokens).filterMap Attempt.mismatch?

/-! ## Where reading goes on -/

theorem boundary_nil : Boundary [] := by
  simp [Boundary]

theorem progress_append (others rest next : List Token) :
    progress (others ++ next) (rest ++ next) = progress others rest ++ next := by
  simp only [progress, List.length_append, Nat.add_le_add_iff_right]
  split <;> rfl

theorem dropWhile_boundary {next : List Token} (h : Boundary next) :
    (next.dropWhile fun t => !opensDeclaration t) = next := by
  cases next with
  | nil => rfl
  | cons t others => simp [h t rfl]

theorem recover_append {t : Token} {others next : List Token} {mismatch : Mismatch Token} (hOthers : Interior others)
    (hRest : mismatch.rest <:+ t :: others) (hNext : Boundary next) :
    recover (others ++ next) (mismatch.before next) = next := by
  have hInterior := hOthers.suffix (progress_suffix hRest)
  rw [recover_tokens, Mismatch.before, progress_append, List.dropWhile_append_of_pos, dropWhile_boundary hNext]
  intro u hu
  simp [hInterior u hu]

/-! ## Parts are tried alone -/

theorem attempts_eq_of_mismatch {t : Token} {others : List Token} {mismatch : Mismatch Token} (hOthers : Interior others)
    (h : (declaration (t :: others)).mismatch? = some mismatch) (hRest : mismatch.rest <:+ t :: others) :
    attempts (t :: others) = [⟨t :: others, .error mismatch⟩] := by
  have hNothing : recover others mismatch = [] := by
    simpa using recover_append hOthers hRest boundary_nil
  rw [attempts_of_mismatch h, hNothing, attempts]

/-- A try that goes wrong is the last one before `next`. -/
theorem attempts_append_of_mismatch {t : Token} {others next : List Token} {mismatch : Mismatch Token}
    (hOthers : Interior others) (hNext : Boundary next)
    (h : (declaration (t :: others)).mismatch? = some mismatch)
    (hBefore : (declaration (t :: (others ++ next))).mismatch? = some (mismatch.before next))
    (hRest : mismatch.rest <:+ t :: others) :
    attempts (t :: others ++ next) = (attempts (t :: others)).map (Attempt.before next) ++ attempts next := by
  rw [List.cons_append, attempts_of_mismatch hBefore, recover_append hOthers hRest hNext,
    attempts_eq_of_mismatch hOthers h hRest]
  rfl

theorem attempts_append_of_interior {tokens next : List Token} (hTokens : Interior tokens) (hNext : Boundary next) :
    attempts (tokens ++ next) = (attempts tokens).map (Attempt.before next) ++ attempts next := by
  cases tokens with
  | nil => simp [attempts]
  | cons t others =>
    have hStray := declaration_eq_of_stray (hTokens t List.mem_cons_self)
    exact attempts_append_of_mismatch (hTokens.suffix (List.suffix_cons t others)) hNext
      (congrArg Outcome.mismatch? (hStray others)) (congrArg Outcome.mismatch? (hStray (others ++ next)))
      List.suffix_rfl

/-- Only the first token of `part` may open a declaration. -/
theorem attempts_append {part next : List Token} (hPart : Interior part.tail) (hNext : Boundary next)
    (hTyped : ¬ Phrase.untypedMap part ()) :
    attempts (part ++ next) = (attempts part).map (Attempt.before next) ++ attempts next := by
  cases part with
  | nil => simp [attempts]
  | cons t body =>
    cases hOpens : opensDeclaration t with
    | false => exact attempts_append_of_interior (List.forall_mem_cons.mpr ⟨hOpens, hPart⟩) hNext
    | true =>
      have hLocal := local_declaration hOpens
      have hBefore : declaration (t :: (body ++ next)) = (declaration (t :: body)).before next :=
        hLocal.before ⟨hPart, hTyped⟩ hNext
      have hSuffix : (declaration (t :: body)).rest <:+ body := hLocal.suffix body
      cases hOutcome : declaration (t :: body) with
      | accepted value rest =>
        rw [hOutcome] at hBefore hSuffix
        have hRest : Interior (progress body rest) :=
          hPart.suffix (progress_suffix (hSuffix.trans (List.suffix_cons t body)))
        rw [List.cons_append, attempts_of_accepted hBefore, progress_append, attempts_append_of_interior hRest hNext,
          attempts_of_accepted hOutcome]
        rfl
      | declined mismatch | refused mismatch =>
        rw [hOutcome] at hBefore hSuffix
        exact attempts_append_of_mismatch hPart hNext (congrArg Outcome.mismatch? hOutcome)
          (congrArg Outcome.mismatch? hBefore) (hSuffix.trans (List.suffix_cons t body))

/-! ## What goes wrong in a part -/

theorem faults_append {part next : List Token} (hPart : Interior part.tail) (hNext : Boundary next)
    (hTyped : next ≠ [] → ¬ Phrase.untypedMap part ()) :
    faults (part ++ next) = (faults part).map (Mismatch.before next) ++ faults next := by
  by_cases hNone : next = []
  · simp [hNone, faults, attempts]
  · have hMismatch : Attempt.mismatch? ∘ Attempt.before next =
        fun attempt => attempt.mismatch?.map (Mismatch.before next) := by
      funext attempt
      obtain ⟨start, result⟩ := attempt
      cases result <;> rfl
    rw [faults, attempts_append hPart hNext (hTyped hNone), List.filterMap_append, List.filterMap_map, hMismatch,
      ← List.map_filterMap]
    rfl

theorem faults_of_declaration {part : List Token} {value : Declaration} (h : Phrase.declaration part value) :
    faults part = [] := by
  rw [← List.append_nil part, faults, attempts_append_of_declaration h, attempts]
  rfl

theorem faults_of_interior {tokens : List Token} (hTokens : Interior tokens) (hSome : tokens ≠ []) :
    faults tokens = [⟨.unexpected [.declaration], tokens⟩] := by
  obtain ⟨t, others, rfl⟩ := List.exists_cons_of_ne_nil hSome
  have hStray := declaration_eq_of_stray (hTokens t List.mem_cons_self) others
  rw [faults, attempts_eq_of_mismatch (hTokens.suffix (List.suffix_cons t others))
    (congrArg Outcome.mismatch? hStray) List.suffix_rfl]
  rfl

theorem faults_eq_singleton {part : List Token} (hPart : Interior part.tail) (hSome : part ≠ [])
    (hBad : ∀ value, ¬ Phrase.declaration part value) :
    ∃ mismatch, faults part = [mismatch] ∧ mismatch.rest <:+ part := by
  obtain ⟨t, body, rfl⟩ := List.exists_cons_of_ne_nil hSome
  have hBody : Interior body := hPart
  cases hOpens : opensDeclaration t with
  | false => exact ⟨_, faults_of_interior (List.forall_mem_cons.mpr ⟨hOpens, hBody⟩) hSome, List.suffix_rfl⟩
  | true =>
    have hSuffix : (declaration (t :: body)).rest <:+ body := (local_declaration hOpens).suffix body
    have hWithin := List.suffix_cons t body
    cases hOutcome : declaration (t :: body) with
    | accepted value rest =>
      have hLeft : rest <:+ body := (local_declaration hOpens).suffix_of_accepted hOutcome
      obtain ⟨used, hUsed, hPhrase⟩ := (Item.toReads item_declaration).sound hOutcome
      -- a declaration is read, so what is left in the part belongs to none
      have hRest : rest ≠ [] := by
        rintro rfl
        rw [List.append_nil] at hUsed
        exact hBad value (hUsed ▸ hPhrase)
      refine ⟨⟨.unexpected [.declaration], rest⟩, ?_, hLeft.trans hWithin⟩
      rw [← faults_of_interior (hBody.suffix hLeft) hRest, faults, attempts_of_accepted hOutcome,
        progress_eq_of_item hUsed hPhrase]
      rfl
    | declined mismatch | refused mismatch =>
      rw [hOutcome] at hSuffix
      refine ⟨mismatch, ?_, hSuffix.trans hWithin⟩
      rw [faults, attempts_eq_of_mismatch hBody (congrArg Outcome.mismatch? hOutcome) (hSuffix.trans hWithin)]
      rfl

end DomainAtlas
