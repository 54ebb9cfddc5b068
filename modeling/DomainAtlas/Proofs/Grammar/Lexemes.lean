import DomainAtlas.Proofs.Grammar.Skipping

/-! # Documents of items with trivia between them

The tries at the declarations of a document go over all of its items: a try begins at a token, what follows a try is
found by the number of items that are left, and so is the place of a mismatch. None of this depends on the trivia. The
tries are those at the tokens among the items, and so are the declarations, their headers and the diagnostics.
-/
set_option autoImplicit false

namespace DomainAtlas

open Grammar Reader

variable {ι α : Type} [Readable ι]

/-! ## Where reading goes on -/

theorem bare_progress {item : ι} {t : Token} (hToken : Readable.token? item = some t) {others rest : List ι}
    (hRest : rest <:+ item :: others) : bare (progress others rest) = progress (bare others) (bare rest) := by
  rcases List.suffix_cons_iff.mp hRest with rfl | hSuffix
  · have hItems : ¬ (item :: others).length ≤ others.length := Nat.not_succ_le_self _
    have hTokens : ¬ (t :: bare others).length ≤ (bare others).length := Nat.not_succ_le_self _
    rw [bare_cons_of_token hToken, progress, progress, if_neg hItems, if_neg hTokens]
  · rw [progress, progress, if_pos hSuffix.length_le, if_pos (bare_suffix hSuffix).length_le]

theorem bare_dropWhile (items : List ι) :
    bare (items.dropWhile fun item => !(Readable.token? item).any opensDeclaration) =
      (bare items).dropWhile fun t => !opensDeclaration t := by
  induction items with
  | nil => rfl
  | cons item others ih =>
    cases hToken : Readable.token? item with
    | none => rw [List.dropWhile_cons_of_pos (by simp [hToken]), ih, bare_cons_of_trivia hToken]
    | some t =>
      cases hOpens : opensDeclaration t with
      | true =>
        rw [List.dropWhile_cons_of_neg (by simp [hToken, hOpens]), bare_cons_of_token hToken,
          List.dropWhile_cons_of_neg (by simp [hOpens])]
      | false =>
        rw [List.dropWhile_cons_of_pos (by simp [hToken, hOpens]), ih, bare_cons_of_token hToken,
          List.dropWhile_cons_of_pos (by simp [hOpens])]

theorem bare_recover {item : ι} {t : Token} (hToken : Readable.token? item = some t) {others : List ι}
    {mismatch : Mismatch ι} (hRest : mismatch.rest <:+ item :: others) :
    bare (recover others mismatch) = recover (bare others) mismatch.bare := by
  rw [recover, bare_dropWhile, bare_progress hToken hRest]
  rfl

theorem recover_suffix {item : ι} {others : List ι} {mismatch : Mismatch ι} (h : mismatch.rest <:+ item :: others) :
    recover others mismatch <:+ others :=
  (List.dropWhile_suffix _).trans (progress_suffix h)

/-! ## Tries -/

def Attempt.bare (attempt : Attempt ι) : Attempt Token :=
  ⟨DomainAtlas.bare attempt.start, attempt.result.mapError Mismatch.bare⟩

theorem Attempt.result_bare_of_ok {attempt : Attempt ι} {value : Declaration} (h : attempt.result = .ok value) :
    attempt.bare.result = .ok value := by
  rw [Attempt.bare, h]
  rfl

theorem Attempt.result_bare_of_error {attempt : Attempt ι} {mismatch : Mismatch ι}
    (h : attempt.result = .error mismatch) : attempt.bare.result = .error mismatch.bare := by
  rw [Attempt.bare, h]
  rfl

theorem attempts_cons (t : Token) (others : List Token) :
    attempts (t :: others) =
      match declaration (t :: others) with
      | .accepted value rest => ⟨t :: others, .ok value⟩ :: attempts (progress others rest)
      | .declined mismatch => ⟨t :: others, .error mismatch⟩ :: attempts (recover others mismatch)
      | .refused mismatch => ⟨t :: others, .error mismatch⟩ :: attempts (recover others mismatch) := by
  rw [attempts, if_neg (by simp)]
  cases declaration (t :: others) <;> rfl

theorem attempts_of_accepted {t : Token} {others rest : List Token} {value : Declaration}
    (h : declaration (t :: others) = .accepted value rest) :
    attempts (t :: others) = ⟨t :: others, .ok value⟩ :: attempts (progress others rest) := by
  rw [attempts_cons, h]

theorem attempts_of_mismatch {t : Token} {others : List Token} {mismatch : Mismatch Token}
    (h : (declaration (t :: others)).mismatch? = some mismatch) :
    attempts (t :: others) = ⟨t :: others, .error mismatch⟩ :: attempts (recover others mismatch) := by
  rw [attempts_cons]
  cases hOutcome : declaration (t :: others) with
  | accepted value rest => simp [hOutcome, Outcome.mismatch?] at h
  | declined found | refused found =>
    rw [hOutcome] at h
    cases h
    rfl

theorem map_bare_attempts (items : List ι) : (attempts items).map Attempt.bare = attempts (bare items) := by
  have hMismatch : ∀ (item : ι) (others : List ι) (mismatch : Mismatch ι),
      ¬ (Readable.token? item).isNone = true → (declaration (item :: others)).mismatch? = some mismatch →
      (attempts (recover others mismatch)).map Attempt.bare = attempts (bare (recover others mismatch)) →
      Attempt.bare ⟨item :: others, .error mismatch⟩ :: (attempts (recover others mismatch)).map Attempt.bare =
        attempts (bare (item :: others)) := by
    intro item others mismatch hNot hRead ih
    obtain ⟨t, hToken⟩ := Option.ne_none_iff_exists'.mp (mt Option.isNone_iff_eq_none.mpr hNot)
    have hOnTokens := skips_declaration.onTokens_of_mismatch hRead
    have hRest := skips_declaration.suffix_of_mismatch hRead
    rw [bare_cons_of_token hToken] at hOnTokens
    rw [ih, bare_recover hToken hRest, bare_cons_of_token hToken, attempts_of_mismatch hOnTokens, Attempt.bare,
      bare_cons_of_token hToken]
    rfl
  fun_induction attempts items with
  | case1 => rw [bare, List.filterMap_nil, attempts, List.map_nil]
  | case2 item others hTrivia ih => rw [ih, bare_cons_of_trivia (Option.isNone_iff_eq_none.mp hTrivia)]
  | case3 item others hNot value rest hRead ih =>
    obtain ⟨t, hToken⟩ := Option.ne_none_iff_exists'.mp (mt Option.isNone_iff_eq_none.mpr hNot)
    have hOnTokens := skips_declaration.onTokens_of_accepted hRead
    have hRest := (skips_declaration.left_of_accepted hRead).suffix
    rw [bare_cons_of_token hToken] at hOnTokens
    rw [List.map_cons, ih, bare_progress hToken hRest, bare_cons_of_token hToken, attempts_of_accepted hOnTokens,
      Attempt.bare, bare_cons_of_token hToken]
    rfl
  | case4 item others hNot mismatch hDeclined ih =>
    exact hMismatch item others mismatch hNot (congrArg Outcome.mismatch? hDeclined) ih
  | case5 item others hNot mismatch hRefused ih =>
    exact hMismatch item others mismatch hNot (congrArg Outcome.mismatch? hRefused) ih

/-- The try begins among the items, and what it left unread lies there. -/
def Attempt.Within (items : List ι) (attempt : Attempt ι) : Prop :=
  attempt.start <:+ items ∧ ∀ mismatch, attempt.result = .error mismatch → mismatch.rest <:+ items

omit [Readable ι] in
theorem Attempt.Within.mono {items others : List ι} {attempt : Attempt ι} (h : attempt.Within others)
    (hOthers : others <:+ items) : attempt.Within items :=
  ⟨h.1.trans hOthers, fun mismatch hMismatch => (h.2 mismatch hMismatch).trans hOthers⟩

theorem within_of_mem_attempts (items : List ι) : ∀ attempt ∈ attempts items, attempt.Within items := by
  have hMismatch : ∀ (item : ι) (others : List ι) (mismatch : Mismatch ι),
      (declaration (item :: others)).mismatch? = some mismatch →
      (∀ attempt ∈ attempts (recover others mismatch), attempt.Within (recover others mismatch)) →
      ∀ attempt ∈ ⟨item :: others, .error mismatch⟩ :: attempts (recover others mismatch),
        attempt.Within (item :: others) := by
    intro item others mismatch hRead ih
    have hRest := skips_declaration.suffix_of_mismatch hRead
    have hLater := (recover_suffix hRest).trans (List.suffix_cons item others)
    refine List.forall_mem_cons.mpr ⟨⟨List.suffix_rfl, ?_⟩, fun attempt hMem => (ih attempt hMem).mono hLater⟩
    rintro _ ⟨⟩
    exact hRest
  fun_induction attempts items with
  | case1 => exact fun _ hMem => nomatch hMem
  | case2 item others hTrivia ih => exact fun attempt hMem => (ih attempt hMem).mono (List.suffix_cons item others)
  | case3 item others hNot value rest hRead ih =>
    have hRest := progress_suffix (skips_declaration.left_of_accepted hRead).suffix
    have hLater := hRest.trans (List.suffix_cons item others)
    exact List.forall_mem_cons.mpr ⟨⟨List.suffix_rfl, fun _ hError => nomatch hError⟩,
      fun attempt hMem => (ih attempt hMem).mono hLater⟩
  | case4 item others hNot mismatch hDeclined ih =>
    exact hMismatch item others mismatch (congrArg Outcome.mismatch? hDeclined) ih
  | case5 item others hNot mismatch hRefused ih =>
    exact hMismatch item others mismatch (congrArg Outcome.mismatch? hRefused) ih

/-! ## Places -/

variable {items : List (Placed ι)}

theorem values_tokensOf (items : List (Placed ι)) : (tokensOf items).map (·.value) = bare (items.map (·.value)) := by
  rw [tokensOf, bare, List.map_filterMap, List.filterMap_map]
  refine List.filterMap_congr fun item _ => ?_
  rw [Placed.token?, Option.map_map, Function.comp_apply]
  exact Option.map_id' ..

theorem tokensOf_placedRest {rest : List ι} (h : rest <:+ items.map (·.value)) :
    tokensOf (placedRest items rest) = placedRest (tokensOf items) (bare rest) := by
  obtain ⟨values, hValues⟩ := h
  obtain ⟨front, back, rfl, -, rfl⟩ := List.map_eq_append_iff.mp hValues.symm
  rw [placedRest, placedRest, ← values_tokensOf, tokensOf, tokensOf, List.filterMap_append]
  simp only [List.length_append, List.length_map, Nat.add_sub_cancel, List.drop_left, tokensOf]

theorem endSpan_tokensOf (items : List (Placed ι)) : endSpan (tokensOf items) = endSpan items := by
  rw [endSpan, tokensOf_tokens, endSpan]

theorem diagnostic_tokensOf (mismatch : Mismatch ι) (h : mismatch.rest <:+ items.map (·.value)) :
    mismatch.bare.diagnostic (tokensOf items) = mismatch.diagnostic items := by
  rw [Mismatch.diagnostic, Mismatch.diagnostic, tokensOf_tokens, Mismatch.bare, tokensOf_placedRest h,
    endSpan_tokensOf]

theorem headerSpan_tokensOf {start : List ι} (h : start <:+ items.map (·.value)) (value : Declaration) :
    headerSpan (tokensOf items) (bare start) value = headerSpan items start value := by
  rw [headerSpan, headerSpan, tokensOf_tokens, tokensOf_placedRest h, endSpan_tokensOf]

/-! ## Documents -/

theorem diagnostic?_tokensOf {attempt : Attempt ι} (h : attempt.Within (items.map (·.value))) :
    attempt.bare.diagnostic? (tokensOf items) = attempt.diagnostic? items := by
  cases hResult : attempt.result with
  | ok value => simp only [Attempt.diagnostic?, Attempt.result_bare_of_ok hResult, hResult]
  | error mismatch =>
    have hDiagnostic := diagnostic_tokensOf mismatch (h.2 mismatch hResult)
    simp only [Attempt.diagnostic?, Attempt.result_bare_of_error hResult, hResult, hDiagnostic]

theorem declaration?_tokensOf {attempt : Attempt ι} (h : attempt.Within (items.map (·.value))) :
    attempt.bare.declaration? (tokensOf items) = attempt.declaration? items := by
  cases hResult : attempt.result with
  | ok value =>
    have hHeader := headerSpan_tokensOf h.1 value
    simp only [Attempt.declaration?, Attempt.result_bare_of_ok hResult, hResult]
    rw [Attempt.bare, hHeader]
  | error mismatch => simp only [Attempt.declaration?, Attempt.result_bare_of_error hResult, hResult]

theorem filterMap_attempts_tokensOf (items : List (Placed ι)) {onItems : Attempt ι → Option α}
    {onTokens : Attempt Token → Option α}
    (h : ∀ attempt, attempt.Within (items.map (·.value)) → onTokens attempt.bare = onItems attempt) :
    (attempts ((tokensOf items).map (·.value))).filterMap onTokens =
      (attempts (items.map (·.value))).filterMap onItems := by
  rw [values_tokensOf, ← map_bare_attempts, List.filterMap_map]
  exact List.filterMap_congr fun attempt hMem => h attempt (within_of_mem_attempts _ attempt hMem)

theorem declarationsOf_tokensOf (items : List (Placed ι)) : declarationsOf (tokensOf items) = declarationsOf items := by
  simp only [declarationsOf, filterMap_attempts_tokensOf items fun _ => diagnostic?_tokensOf,
    filterMap_attempts_tokensOf items fun _ => declaration?_tokensOf]

theorem documentOf_tokensOf (items : List (Placed ι)) : documentOf (tokensOf items) = documentOf items := by
  rw [documentOf, declarationsOf_tokensOf, documentOf]

/-- What follows a type is looked for past the trivia. -/
theorem typeRefOf_tokensOf (items : List (Placed ι)) : typeRefOf (tokensOf items) = typeRefOf items := by
  have hValues := values_tokensOf items
  cases hRead : typeRef (items.map (·.value)) with
  | accepted type rest =>
    have hOnTokens := skips_typeRef.onTokens_of_accepted hRead
    have hRest := (skips_typeRef.left_of_accepted hRead).suffix
    simp only [typeRefOf, hValues, hRead, hOnTokens, skipTrivia_tokens]
    cases hSkipped : skipTrivia rest with
    | nil => rw [bare_eq_nil_of_skipTrivia hSkipped]
    | cons item others =>
      have hLeft : item :: others <:+ items.map (·.value) := hSkipped ▸ (skipTrivia_suffix rest).trans hRest
      obtain ⟨t, hToken, hBare⟩ := skipTrivia_eq_cons hSkipped
      have hDiagnostic := diagnostic_tokensOf ⟨.unexpected [.endOfType], item :: others⟩ hLeft
      rw [Mismatch.bare, bare_cons_of_token hToken] at hDiagnostic
      simp only [hBare, hDiagnostic]
  | declined mismatch =>
    have hOnTokens := skips_typeRef.onTokens_of_declined hRead
    have hDiagnostic := diagnostic_tokensOf mismatch (skips_typeRef.suffix_of_declined hRead)
    simp only [typeRefOf, hValues, hRead, hOnTokens, hDiagnostic]
  | refused mismatch =>
    have hOnTokens := skips_typeRef.onTokens_of_refused hRead
    have hDiagnostic := diagnostic_tokensOf mismatch (skips_typeRef.suffix_of_refused hRead)
    simp only [typeRefOf, hValues, hRead, hOnTokens, hDiagnostic]

end DomainAtlas
