import DomainAtlas.Proofs.Grammar.Lexemes
import DomainAtlas.Proofs.Grammar.Maps

/-! # Documents are read exactly

A list of lexemes is read as declarations if and only if its tokens are a phrase of `Phrase.document`, and
then as the only tree that they are a phrase for. A phrase uses up all of its tokens, so none of them
goes unread.
-/
set_option autoImplicit false

namespace DomainAtlas

open Grammar

theorem progress_eq_of_item {t : Token} {others used rest : List Token} {value : Declaration}
    (hUsed : t :: others = used ++ rest) (hPhrase : Phrase.declaration used value) :
    progress others rest = rest := by
  obtain ⟨u, tail, rfl, -⟩ := Item.begins item_declaration used value hPhrase
  have hLength := congrArg List.length hUsed
  have hLe : rest.length ≤ others.length := by
    simp only [List.length_cons, List.cons_append, List.length_append] at hLength
    omega
  rw [progress, if_pos hLe]

theorem recover_tokens (others : List Token) (mismatch : Mismatch Token) :
    recover others mismatch = (progress others mismatch.rest).dropWhile fun t => !opensDeclaration t :=
  rfl

theorem attempts_append_of_declaration {front : List Token} {value : Declaration}
    (h : Phrase.declaration front value) (back : List Token) :
    attempts (front ++ back) = ⟨front ++ back, .ok value⟩ :: attempts back := by
  obtain ⟨t, others, rfl, -⟩ := Item.begins item_declaration front value h
  have hAccepted := (Item.toReads item_declaration).complete h (clear_noToken back)
  rw [List.cons_append] at hAccepted ⊢
  rw [attempts_cons, hAccepted]
  simp only
  rw [progress_eq_of_item (List.cons_append ..).symm h]

theorem attempts_of_document {tokens : List Token} {tree : List Declaration}
    (h : Phrase.document tokens tree) : (attempts tokens).map (·.result) = tree.map .ok := by
  induction h with
  | nil => rw [attempts, List.map_nil, List.map_nil]
  | @cons front back value values hFront hBack ih =>
    rw [attempts_append_of_declaration hFront, List.map_cons, List.map_cons, ih]

theorem document_of_attempts {tokens : List Token} {tree : List Declaration}
    (h : (attempts tokens).map (·.result) = tree.map .ok) : Phrase.document tokens tree := by
  fun_induction attempts tokens generalizing tree with
  | case1 =>
    cases tree with
    | nil => exact .nil
    | cons value values => cases h
  | case2 t others hTrivia ih => cases hTrivia
  | case3 t others hToken value rest hAccepted ih =>
    cases tree with
    | nil => cases h
    | cons value' values =>
      obtain ⟨hValue, hValues⟩ := List.cons.inj h
      cases hValue
      obtain ⟨used, hUsed, hPhrase⟩ := (Item.toReads item_declaration).sound hAccepted
      rw [progress_eq_of_item hUsed hPhrase] at ih hValues
      rw [hUsed]
      exact .cons hPhrase (ih hValues)
  | case4 t others hToken mismatch hDeclined ih | case5 t others hToken mismatch hRefused ih =>
    cases tree with
    | nil => cases h
    | cons value values => cases (List.cons.inj h).1

def Attempt.value? (attempt : Attempt Token) : Option Declaration :=
  attempt.result.toOption

theorem diagnostics_eq_nil_iff (tokens : List (Placed Token)) (tries : List (Attempt Token)) :
    tries.filterMap (Attempt.diagnostic? tokens) = [] ↔
      tries.map (·.result) = (tries.filterMap Attempt.value?).map .ok := by
  induction tries with
  | nil => simp
  | cons attempt tries ih =>
    cases hResult : attempt.result with
    | ok value => simp [Attempt.diagnostic?, Attempt.value?, hResult, ih, Except.toOption]
    | error mismatch =>
      simp only [List.filterMap_cons, Attempt.diagnostic?, hResult, Attempt.value?, Except.toOption,
        List.map_cons, reduceCtorEq, false_iff]
      intro h
      cases hTries : tries.filterMap Attempt.value? with
      | nil =>
        rw [hTries] at h
        cases h
      | cons value values =>
        rw [hTries] at h
        cases (List.cons.inj h).1

theorem values_declaration? (tokens : List (Placed Token)) (tries : List (Attempt Token)) :
    (tries.filterMap (Attempt.declaration? tokens)).map (·.value) = tries.filterMap Attempt.value? := by
  induction tries with
  | nil => rfl
  | cons attempt tries ih =>
    cases hResult : attempt.result with
    | ok value => simp [Attempt.declaration?, Attempt.value?, hResult, ih, Except.toOption]
    | error mismatch =>
      simp [Attempt.declaration?, Attempt.value?, hResult, ih, Except.toOption]

theorem filterMap_value?_of_results {tries : List (Attempt Token)} {tree : List Declaration}
    (h : tries.map (·.result) = tree.map .ok) : tries.filterMap Attempt.value? = tree := by
  induction tries generalizing tree with
  | nil =>
    cases tree with
    | nil => rfl
    | cons value values => cases h
  | cons attempt tries ih =>
    cases tree with
    | nil => cases h
    | cons value values =>
      obtain ⟨hValue, hValues⟩ := List.cons.inj h
      simp [Attempt.value?, hValue, Except.toOption, ih hValues]

section

variable {ι : Type} [Readable ι] {items : List (Placed ι)}

theorem document_of_declarationsOf {declared : List (Placed Declaration)} (h : declarationsOf items = .ok declared) :
    Phrase.document ((tokensOf items).map (·.value)) (declared.map (·.value)) := by
  rw [← declarationsOf_tokensOf] at h
  dsimp only [declarationsOf] at h
  split at h
  · rename_i hNone
    cases h
    rw [values_declaration?]
    exact document_of_attempts ((diagnostics_eq_nil_iff (tokensOf items) _).mp hNone)
  · cases h

theorem declarationsOf_of_document {tree : List Declaration} (h : Phrase.document ((tokensOf items).map (·.value)) tree) :
    ∃ declared, declarationsOf items = .ok declared ∧ declared.map (·.value) = tree := by
  have hResults := attempts_of_document h
  have hValues := filterMap_value?_of_results hResults
  have hNone : (attempts ((tokensOf items).map (·.value))).filterMap (Attempt.diagnostic? (tokensOf items)) = [] := by
    rw [diagnostics_eq_nil_iff, hValues, hResults]
  refine ⟨(attempts ((tokensOf items).map (·.value))).filterMap (Attempt.declaration? (tokensOf items)), ?_, ?_⟩
  · rw [← declarationsOf_tokensOf]
    simp only [declarationsOf, hNone]
  · rw [values_declaration?, hValues]

end

theorem declarationsOf_iff_document (lexemes : List Lexeme) :
    ((∃ declared, declarationsOf lexemes = .ok declared) ↔
      ∃ tree, Phrase.document ((tokensOf lexemes).map (·.value)) tree) ∧
    ∀ declared, declarationsOf lexemes = .ok declared →
      ∀ tree, Phrase.document ((tokensOf lexemes).map (·.value)) tree ↔ tree = declared.map (·.value) := by
  refine ⟨⟨?_, ?_⟩, ?_⟩
  · rintro ⟨declared, hDeclared⟩
    exact ⟨_, document_of_declarationsOf hDeclared⟩
  · rintro ⟨tree, hTree⟩
    obtain ⟨declared, hDeclared, -⟩ := declarationsOf_of_document hTree
    exact ⟨declared, hDeclared⟩
  · intro declared hDeclared tree
    constructor
    · intro hTree
      obtain ⟨again, hAgain, rfl⟩ := declarationsOf_of_document hTree
      rw [hDeclared] at hAgain
      cases hAgain
      rfl
    · rintro rfl
      exact document_of_declarationsOf hDeclared

end DomainAtlas
