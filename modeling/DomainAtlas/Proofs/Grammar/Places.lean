import DomainAtlas.Proofs.Grammar.Diagnostics
import DomainAtlas.Proofs.Token.Spans

/-! # Where mismatches and declarations lie

The tokens that are left tell a place: that of the first of them, or the end of the last token when none is left. Each
try of a document starts after the one before it, and leaves less when it goes wrong than those before it. So the
places of tries and of mismatches follow one another.
-/
set_option autoImplicit false

namespace DomainAtlas

open Grammar

/-! ## What is left decreases -/

theorem rest_suffix_of_mismatch {t : Token} {others : List Token} {mismatch : Mismatch Token}
    (h : (declaration (t :: others)).mismatch? = some mismatch) :
    mismatch.rest <:+ t :: others ∧ (opensDeclaration t = true → mismatch.rest <:+ others) := by
  cases hOpens : opensDeclaration t with
  | false =>
    rw [declaration_eq_of_stray hOpens] at h
    cases h
    exact ⟨List.suffix_rfl, fun hTrue => by cases hTrue⟩
  | true =>
    have hSuffix : (declaration (t :: others)).rest <:+ others := (local_declaration hOpens).suffix others
    cases hOutcome : declaration (t :: others) with
    | accepted value rest =>
      rw [hOutcome] at h
      cases h
    | declined found | refused found =>
      rw [hOutcome] at h hSuffix
      cases h
      exact ⟨hSuffix.trans (List.suffix_cons t others), fun _ => hSuffix⟩

theorem progress_suffix_of_accepted {t : Token} {others rest : List Token} {value : Declaration}
    (h : declaration (t :: others) = .accepted value rest) : progress others rest <:+ others := by
  obtain ⟨used, hUsed, hPhrase⟩ := (Item.toReads item_declaration).sound h
  exact progress_suffix ⟨used, hUsed.symm⟩

theorem boundary_recover (others : List Token) (mismatch : Mismatch Token) : Boundary (recover others mismatch) := by
  intro t ht
  have hHead := List.head?_dropWhile_not (fun t => !opensDeclaration t) (progress others mismatch.rest)
  rw [recover_tokens] at ht
  simpa [Option.mem_def.mp ht] using hHead

theorem length_recover_le_rest (others : List Token) (mismatch : Mismatch Token) :
    (recover others mismatch).length ≤ mismatch.rest.length := by
  refine Nat.le_trans (List.dropWhile_sublist _).length_le ?_
  unfold progress
  split
  · exact Nat.le_refl _
  · omega

theorem attempts_decrease (tokens : List Token) :
    (∀ attempt ∈ attempts tokens, attempt.start <:+ tokens ∧ attempt.start ≠ []) ∧
      (attempts tokens).Pairwise fun a b => b.start.length < a.start.length := by
  -- all tries after the first start within `others`
  have hStep : ∀ (t : Token) (others next : List Token) (result : Except (Mismatch Token) Declaration), next <:+ others →
      ((∀ attempt ∈ attempts next, attempt.start <:+ next ∧ attempt.start ≠ []) ∧
        (attempts next).Pairwise fun a b => b.start.length < a.start.length) →
      (∀ attempt ∈ ⟨t :: others, result⟩ :: attempts next, attempt.start <:+ t :: others ∧ attempt.start ≠ []) ∧
        (⟨t :: others, result⟩ :: attempts next).Pairwise fun a b => b.start.length < a.start.length := by
    intro t others next result hNext ⟨hStarts, hOrdered⟩
    refine ⟨List.forall_mem_cons.mpr ⟨⟨List.suffix_rfl, List.cons_ne_nil _ _⟩, fun attempt hAttempt => ?_⟩,
      List.pairwise_cons.mpr ⟨fun attempt hAttempt => ?_, hOrdered⟩⟩
    · obtain ⟨hSuffix, hSome⟩ := hStarts attempt hAttempt
      exact ⟨(hSuffix.trans hNext).trans (List.suffix_cons t others), hSome⟩
    · exact Nat.lt_succ_of_le ((hStarts attempt hAttempt).1.trans hNext).length_le
  fun_induction attempts tokens with
  | case1 => simp
  | case2 t others hTrivia ih => cases hTrivia
  | case3 t others hToken value rest hAccepted ih =>
    exact hStep t others _ _ (progress_suffix_of_accepted hAccepted) ih
  | case4 t others hToken mismatch hDeclined ih =>
    exact hStep t others _ _ (recover_suffix (rest_suffix_of_mismatch (congrArg Outcome.mismatch? hDeclined)).1) ih
  | case5 t others hToken mismatch hRefused ih =>
    exact hStep t others _ _ (recover_suffix (rest_suffix_of_mismatch (congrArg Outcome.mismatch? hRefused)).1) ih

theorem faults_decrease (tokens : List Token) :
    (∀ mismatch ∈ faults tokens, mismatch.rest <:+ tokens ∧
        (Boundary tokens → mismatch.rest.length < tokens.length)) ∧
      (faults tokens).Pairwise fun a b => b.rest.length < a.rest.length := by
  have hMismatch : ∀ (t : Token) (others : List Token) (mismatch : Mismatch Token),
      (declaration (t :: others)).mismatch? = some mismatch →
      ((∀ later ∈ faults (recover others mismatch), later.rest <:+ recover others mismatch ∧
          (Boundary (recover others mismatch) → later.rest.length < (recover others mismatch).length)) ∧
        (faults (recover others mismatch)).Pairwise fun a b => b.rest.length < a.rest.length) →
      (∀ found ∈ mismatch :: faults (recover others mismatch), found.rest <:+ t :: others ∧
          (Boundary (t :: others) → found.rest.length < (t :: others).length)) ∧
        (mismatch :: faults (recover others mismatch)).Pairwise fun a b => b.rest.length < a.rest.length := by
    intro t others mismatch h ⟨hRests, hOrdered⟩
    obtain ⟨hRest, hInner⟩ := rest_suffix_of_mismatch h
    have hRecover := recover_suffix hRest
    refine ⟨List.forall_mem_cons.mpr ⟨⟨hRest, fun hBoundary => ?_⟩, fun later hLater => ?_⟩,
      List.pairwise_cons.mpr ⟨fun later hLater => ?_, hOrdered⟩⟩
    · exact Nat.lt_succ_of_le (hInner (hBoundary t rfl)).length_le
    · have hSuffix := (hRests later hLater).1.trans hRecover
      exact ⟨hSuffix.trans (List.suffix_cons t others), fun _ => Nat.lt_succ_of_le hSuffix.length_le⟩
    · have hLess := (hRests later hLater).2 (boundary_recover others mismatch)
      exact Nat.lt_of_lt_of_le hLess (length_recover_le_rest others mismatch)
  unfold faults at hMismatch ⊢
  fun_induction attempts tokens with
  | case1 => simp
  | case2 t others hTrivia ih => cases hTrivia
  | case3 t others hToken value rest hAccepted ih =>
    obtain ⟨hRests, hOrdered⟩ := ih
    refine ⟨fun mismatch hMem => ?_, hOrdered⟩
    have hSuffix := (hRests mismatch hMem).1.trans (progress_suffix_of_accepted hAccepted)
    exact ⟨hSuffix.trans (List.suffix_cons t others), fun _ => Nat.lt_succ_of_le hSuffix.length_le⟩
  | case4 t others hToken mismatch hDeclined ih =>
    exact hMismatch t others mismatch (congrArg Outcome.mismatch? hDeclined) ih
  | case5 t others hToken mismatch hRefused ih =>
    exact hMismatch t others mismatch (congrArg Outcome.mismatch? hRefused) ih

/-! ## Places -/

/-- The place of the first token that is left, or the end of the tokens. -/
def place (tokens : List (Placed Token)) (rest : List Token) : Span :=
  ((placedRest tokens rest).head?.map (·.span)).getD (endSpan tokens)

theorem labels_diagnostic (tokens : List (Placed Token)) (mismatch : Mismatch Token) :
    ∃ message, (mismatch.diagnostic tokens).labels = [⟨place tokens mismatch.rest, message, true⟩] := by
  obtain ⟨complaint, rest⟩ := mismatch
  rw [Mismatch.diagnostic, tokensOf_tokens, place]
  cases complaint with
  | nestedCollection => exact ⟨_, rfl⟩
  | unexpected expected =>
    cases (placedRest tokens rest).head? with
    | none => exact ⟨_, rfl⟩
    | some found => exact ⟨_, rfl⟩

theorem severity_diagnostic (tokens : List (Placed Token)) (mismatch : Mismatch Token) :
    (mismatch.diagnostic tokens).severity = .error ∧ (mismatch.diagnostic tokens).code.isSome := by
  obtain ⟨complaint, rest⟩ := mismatch
  rw [Mismatch.diagnostic, tokensOf_tokens]
  cases complaint with
  | nestedCollection => exact ⟨rfl, rfl⟩
  | unexpected expected =>
    cases (placedRest tokens rest).head? <;> exact ⟨rfl, rfl⟩

theorem exists_append_of_length_le {α : Type} {rest : List Token} {values : List α} (h : rest.length ≤ values.length) :
    ∃ done left, values = done ++ left ∧ left.length = rest.length := by
  refine ⟨_, _, (List.take_append_drop (values.length - rest.length) values).symm, ?_⟩
  rw [List.length_drop]
  omega

theorem placedRest_of_length {done left : List (Placed Token)} {rest : List Token}
    (h : left.length = rest.length) : placedRest (done ++ left) rest = left := by
  rw [placedRest, List.length_append, h, Nat.add_sub_cancel, List.drop_left]

section

variable {cs : List Char} {tokens : List (Placed Token)} (hLaid : Laid cs (tokens.map (·.span)))

include hLaid

theorem within_token {t : Placed Token} (ht : t ∈ tokens) : t.span.Within cs :=
  hLaid.within _ (List.mem_map_of_mem ht)

theorem within_place (rest : List Token) : (place tokens rest).Within cs := by
  unfold place
  cases hHead : (placedRest tokens rest).head? with
  | some t =>
    exact within_token hLaid (List.mem_of_mem_drop (List.mem_of_mem_head? hHead))
  | none =>
    rw [endSpan, tokensOf_tokens]
    cases hLast : tokens.getLast? with
    | some last => exact within_emptyAt (within_token hLaid (List.mem_of_getLast? hLast)).stop
    | none => exact within_emptyAt (offsetIn_zero cs)

/-- A place that leaves less lies later. -/
theorem place_lt {rest later : List Token} (hLater : later.length < rest.length)
    (hRest : rest.length ≤ tokens.length) : (place tokens rest).start < (place tokens later).start := by
  obtain ⟨done, left, rfl, hLeft⟩ := exists_append_of_length_le hRest
  obtain ⟨between, after, rfl, hAfter⟩ := exists_append_of_length_le (hLeft ▸ hLater.le)
  obtain ⟨t, others, rfl⟩ : ∃ t others, between = t :: others := by
    refine List.exists_cons_of_ne_nil ?_
    rintro rfl
    rw [List.nil_append, hAfter] at hLeft
    omega
  have hPlace : place (done ++ (t :: others ++ after)) rest = t.span := by
    rw [place, placedRest_of_length hLeft]
    rfl
  have hPlaceLater : placedRest (done ++ (t :: others ++ after)) later = after := by
    rw [← List.append_assoc, placedRest_of_length hAfter]
  -- the token at the place, and those behind it
  have hBehind : Laid cs ((t :: (others ++ after)).map (·.span)) := by
    refine hLaid.sublist ?_
    rw [List.map_append, List.cons_append]
    exact List.sublist_append_right _ _
  rw [List.map_cons] at hBehind
  have hStart := hBehind.nonempty t.span List.mem_cons_self
  have hFollows : ∀ u ∈ others ++ after, t.span.stop ≤ u.span.start := fun u hu =>
    (List.pairwise_cons.mp hBehind.ordered).1 _ (List.mem_map_of_mem hu)
  rw [hPlace, place, hPlaceLater]
  cases after with
  | cons u beyond => exact Nat.lt_of_lt_of_le hStart (hFollows u (List.mem_append_right others List.mem_cons_self))
  | nil =>
    rw [List.append_nil] at hFollows
    have hLast := List.getLast?_eq_some_getLast (List.cons_ne_nil t others)
    rw [List.append_nil, endSpan_append hLast]
    rcases List.mem_cons.mp (List.getLast_mem (List.cons_ne_nil t others)) with hSame | hOther
    · rw [hSame]
      exact hStart
    · have hStop := hFollows _ hOther
      have hInner := ((t :: others).getLast (List.cons_ne_nil t others)).span.start_le_stop
      exact Nat.lt_of_lt_of_le hStart (Nat.le_trans hStop hInner)

/-! ## Headers -/

/-- A declaration starts where its header does. -/
theorem headerSpan_of_start {start : List Token} {value : Declaration} (hSome : start ≠ [])
    (hStart : start.length ≤ tokens.length) :
    (headerSpan tokens start value).Within cs ∧
      (headerSpan tokens start value).start = (place tokens start).start := by
  obtain ⟨done, left, rfl, hLeft⟩ := exists_append_of_length_le hStart
  obtain ⟨t, others, rfl⟩ : ∃ t others, left = t :: others := by
    refine List.exists_cons_of_ne_nil ?_
    rintro rfl
    exact hSome (List.length_eq_zero_iff.mp hLeft.symm)
  obtain ⟨n, hLength⟩ := Nat.exists_eq_succ_of_ne_zero (Nat.ne_of_gt (headerLength_pos value))
  have hHeader : headerSpan (done ++ t :: others) start value =
      ((others.take n).map (·.span)).foldl Span.union t.span := by
    rw [headerSpan, placedRest_of_length hLeft, tokensOf_tokens, hLength]
    rfl
  have hPlace : place (done ++ t :: others) start = t.span := by
    rw [place, placedRest_of_length hLeft]
    rfl
  have hBehind : Laid cs ((t :: others).map (·.span)) := by
    refine hLaid.sublist ?_
    rw [List.map_append]
    exact List.sublist_append_right _ _
  obtain ⟨hFirst, hOthers⟩ := List.forall_mem_cons.mp hBehind.within
  rw [hHeader, hPlace]
  refine ⟨within_foldl_union hFirst fun span hSpan => ?_, start_foldl_union fun span hSpan => ?_⟩
  · exact hOthers span ((List.take_sublist n others).map _ |>.subset hSpan)
  · have hAfter := (List.pairwise_cons.mp hBehind.starts_increase).1 span
    exact (hAfter ((List.take_sublist n others).map _ |>.subset hSpan)).le

theorem declarationsOf_spans {declared : List (Placed Declaration)} (h : declarationsOf tokens = .ok declared) :
    (∀ placed ∈ declared, placed.span.Within cs) ∧ declared.Pairwise fun a b => a.span.start < b.span.start := by
  obtain ⟨hStarts, hOrdered⟩ := attempts_decrease (tokens.map (·.value))
  have hLength : ∀ attempt ∈ attempts (tokens.map (·.value)), attempt.start.length ≤ tokens.length :=
    fun attempt hAttempt => by simpa using (hStarts attempt hAttempt).1.length_le
  have hPlaced : ∀ attempt ∈ attempts (tokens.map (·.value)), ∀ placed,
      attempt.declaration? tokens = some placed →
      placed.span.Within cs ∧ placed.span.start = (place tokens attempt.start).start := by
    intro attempt hAttempt placed hDeclaration
    unfold Attempt.declaration? at hDeclaration
    split at hDeclaration
    · cases hDeclaration
      exact headerSpan_of_start hLaid (hStarts attempt hAttempt).2 (hLength attempt hAttempt)
    · cases hDeclaration
  dsimp only [declarationsOf] at h
  split at h
  · cases h
    refine ⟨fun placed hMem => ?_, ?_⟩
    · obtain ⟨attempt, hAttempt, hDeclaration⟩ := List.mem_filterMap.mp hMem
      exact (hPlaced attempt hAttempt placed hDeclaration).1
    · refine List.pairwise_filterMap.mpr (hOrdered.imp_of_mem fun {a b} ha hb hLess => ?_)
      intro first hFirst later hLater
      rw [(hPlaced a ha first hFirst).2, (hPlaced b hb later hLater).2]
      exact place_lt hLaid hLess (hLength a ha)
  · cases h

end

end DomainAtlas
