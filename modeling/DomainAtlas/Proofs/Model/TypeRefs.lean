import DomainAtlas.Proofs.Model.OfSource
import DomainAtlas.Proofs.Printing.Types

/-! # Types of texts

A text is a type reference if its tokens are a phrase of `Phrase.typeRef`. The name in it is a word, and the
written form of a type over a word is that type again.
-/
set_option autoImplicit false

namespace DomainAtlas

open Text

/-! ## Tokens of types -/

def TypeRef.tokens : TypeRef → List Token
  | named n => [.name n]
  | collection kind e => [.keyword kind.keyword, .symbol .lessThan, .name e, .symbol .greaterThan]
  | reference n => [.symbol .dash, .name n]

theorem keyword_of_ofKeyword? {k : Keyword} {kind : CollectionKind} (h : CollectionKind.ofKeyword? k = some kind) :
    k = kind.keyword := by
  unfold CollectionKind.ofKeyword? at h
  split at h <;> cases h <;> rfl

theorem Phrase.eq_tokens_of_typeRef {tokens : List Token} {type : TypeRef} (h : Phrase.typeRef tokens type) :
    tokens = type.tokens := by
  obtain ⟨_, _, kind, rfl, hKind, _, _, _, rfl, hOpen, _, _, e, rfl, hName, _, _, _, rfl, hClose, rfl, rfl⟩ |
    ⟨_, _, _, rfl, hDash, _, _, _, rfl, hName, rfl, rfl⟩ | ⟨_, _, _, rfl, hName, rfl, rfl⟩ := h
  · obtain ⟨k, rfl, hOf⟩ := keywordValue_iff.mp hKind
    rw [symbol_iff.mp hOpen, name_iff.mp hName, symbol_iff.mp hClose, keyword_of_ofKeyword? hOf]
    rfl
  · rw [symbol_iff.mp hDash, name_iff.mp hName]
    rfl
  · rw [name_iff.mp hName]
    rfl

theorem Phrase.typeRef_tokens (type : TypeRef) : Phrase.typeRef type.tokens type := by
  cases type with
  | named n => exact .inr (.inr ⟨[.name n], [], n, rfl, name_iff.mpr rfl, rfl, rfl⟩)
  | reference n =>
    exact .inr (.inl ⟨[.symbol .dash], [.name n], (), rfl, symbol_iff.mpr rfl, [.name n], [], n, rfl,
      name_iff.mpr rfl, rfl, rfl⟩)
  | collection kind e =>
    have hOf : CollectionKind.ofKeyword? kind.keyword = some kind := by
      cases kind <;> rfl
    exact .inl ⟨[.keyword kind.keyword], _, kind, rfl, keywordValue_iff.mpr ⟨_, rfl, hOf⟩, [.symbol .lessThan], _, (),
      rfl, symbol_iff.mpr rfl, [.name e], _, e, rfl, name_iff.mpr rfl, [.symbol .greaterThan], [], (), rfl,
      symbol_iff.mpr rfl, rfl, rfl⟩

/-! ## Types of tokens -/

theorem typeRefOf_eq_ok {lexemes : List Lexeme} {type : TypeRef} :
    typeRefOf lexemes = .ok type ↔ Phrase.typeRef ((tokensOf lexemes).map (·.value)) type := by
  have hReads := Item.toReads item_typeRef
  rw [← typeRefOf_tokensOf]
  generalize tokensOf lexemes = tokens
  constructor
  · intro h
    unfold typeRefOf at h
    split at h
    · rename_i type rest hAccepted
      rw [skipTrivia_tokens] at h
      split at h
      · cases h
        obtain ⟨used, hUsed, hPhrase⟩ := hReads.sound hAccepted
        rw [hUsed, List.append_nil]
        exact hPhrase
      · cases h
    · cases h
    · cases h
  · intro h
    have hAccepted := hReads.complete h (clear_noToken [])
    rw [List.append_nil] at hAccepted
    rw [typeRefOf, hAccepted]
    rfl

theorem TypeRef.ofText_eq_ok {text : String} {type : TypeRef} :
    TypeRef.ofText text = .ok type ↔ ∃ tokens, Scans text.toList tokens ∧ Phrase.typeRef tokens type := by
  constructor
  · intro h
    cases hLexemes : lexemesOf text with
    | error error =>
      rw [TypeRef.ofText, hLexemes] at h
      cases h
    | ok lexemes =>
      rw [TypeRef.ofText, hLexemes] at h
      exact ⟨_, lexemesOf_iff_scans.mp ⟨lexemes, hLexemes, rfl⟩, typeRefOf_eq_ok.mp h⟩
  · rintro ⟨tokens, hScans, hType⟩
    obtain ⟨lexemes, hLexemes, rfl⟩ := lexemesOf_iff_scans.mpr hScans
    rw [TypeRef.ofText, hLexemes]
    exact typeRefOf_eq_ok.mpr hType

theorem TypeRef.isWord_baseName_of_ofText {text : String} {type : TypeRef} (h : TypeRef.ofText text = .ok type) :
    isWord type.baseName = true := by
  obtain ⟨tokens, hScans, hType⟩ := ofText_eq_ok.mp h
  exact Phrase.yields_typeRef tokens type hScans.wordNames hType

theorem TypeRef.ofText_writtenType {type : TypeRef} (h : isWord type.baseName = true) :
    TypeRef.ofText (writtenType type.text) = .ok type := by
  obtain ⟨tokens, hType, hSpells⟩ := Phrase.spelt_typeRef h
  have hScans := hSpells [] [] (fun _ h => absurd h (by simp)) .nil
  rw [List.append_nil, List.append_nil] at hScans
  exact ofText_eq_ok.mpr ⟨tokens, hScans, hType⟩

end DomainAtlas
