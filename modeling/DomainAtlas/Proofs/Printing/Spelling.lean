import DomainAtlas.Naming
import DomainAtlas.Proofs.Grammar.Productions
import DomainAtlas.Proofs.Token.Scan

/-! # Texts of phrases

`Phrase.Spelt follow text value` says that `text` is read as a phrase for `value` wherever what follows it
is as `follow` says: anything at all, or nothing that would prolong a word. Spellings are put together
as phrases are; the tokens in between stay hidden.
-/
set_option autoImplicit false

namespace DomainAtlas

open Text

variable {α β : Type}

def Spells (follow : List Char → Prop) (text : String) (tokens : List Token) : Prop :=
  ∀ rest others, follow rest → Scans rest others → Scans (text.toList ++ rest) (tokens ++ others)

def anyText : List Char → Prop := fun _ => True

theorem Spells.append {follow between : List Char → Prop} {first second : String} {front back : List Token}
    (hFirst : Spells between first front) (hSecond : Spells follow second back)
    (hBetween : ∀ rest, follow rest → between (second.toList ++ rest)) :
    Spells follow (first ++ second) (front ++ back) := by
  intro rest others hFollow hScans
  rw [String.toList_append, List.append_assoc, List.append_assoc]
  exact hFirst _ _ (hBetween rest hFollow) (hSecond rest others hFollow hScans)

theorem spells_empty (follow : List Char → Prop) : Spells follow "" [] :=
  fun _ _ _ hScans => hScans

theorem spells_space : Spells anyText " " [] :=
  fun _ _ _ hScans => scans_space hScans

theorem spells_newline : Spells anyText "\n" [] :=
  fun _ _ _ hScans => scans_newline hScans

theorem spells_spaces (count : Nat) : Spells anyText (String.ofList (List.replicate count ' ')) [] := by
  intro rest others _ hScans
  rw [String.toList_ofList]
  induction count with
  | zero => exact hScans
  | succ count ih => exact scans_space ih

theorem spells_word {w : String} (h : isWord w = true) : Spells EndsWord w [Reading.tokenOfWord w] :=
  fun _ _ hFollow hScans => scans_word h hFollow hScans

theorem spells_escaped {w : String} (h : isWord w = true) : Spells EndsWord ("^" ++ w) [.name w] := by
  intro rest others hFollow hScans
  rw [String.toList_append]
  exact scans_escaped h hFollow hScans

theorem spells_quote (text : String) : Spells anyText (Quoted.quote text) [.string text] :=
  fun _ _ _ hScans => scans_quote text hScans

theorem spells_symbol (s : Symbol) : Spells s.Ends s.text [.symbol s] :=
  fun _ _ hFollow hScans => scans_symbol s hFollow hScans

/-! ## Words -/

theorem spells_keyword (k : Keyword) : Spells EndsWord k.text [.keyword k] := by
  rw [← tokenOfWord_text k]
  exact spells_word (isWord_text k)

theorem tokenOfWord_of_not_isKeyword {w : String} (h : isKeyword w = false) :
    Reading.tokenOfWord w = .name w := by
  rw [isKeyword, Option.isSome_eq_false_iff, Option.isNone_iff_eq_none] at h
  rw [Reading.tokenOfWord, h]

theorem isKeyword_of_not_isReservedWord {w : String} (h : isReservedWord w = false) : isKeyword w = false := by
  cases hKeyword : Keyword.ofWord? w with
  | none => simp [isKeyword, hKeyword]
  | some k =>
    have hText := Keyword.text_of_ofWord?_eq_some hKeyword
    have hMem : w ∈ Keyword.words := hText ▸ List.mem_map_of_mem (List.mem_of_find?_eq_some hKeyword)
    rw [isReservedWord, List.any_eq_false] at h
    exact absurd (h w hMem) (by simp [sameIgnoringCase])

/-! ## Spellings of phrases -/

namespace Phrase

def Spelt (phrase : Phrase α) (follow : List Char → Prop) (text : String) (value : α) : Prop :=
  ∃ tokens, phrase tokens value ∧ Spells follow text tokens

theorem Spelt.closed {phrase : Phrase α} {text : String} {value : α} (h : phrase.Spelt anyText text value)
    (follow : List Char → Prop) : phrase.Spelt follow text value := by
  obtain ⟨tokens, hPhrase, hSpells⟩ := h
  exact ⟨tokens, hPhrase, fun rest others _ => hSpells rest others trivial⟩

theorem spelt_pure (value : α) (follow : List Char → Prop) :
    (pure value : Phrase α).Spelt follow "" value :=
  ⟨[], ⟨rfl, rfl⟩, spells_empty follow⟩

theorem Spelt.bindWith {phrase : Phrase α} {next : α → Phrase β} {follow between : List Char → Prop}
    {first second : String} {value : α} {result : β} (hFirst : phrase.Spelt between first value)
    (hSecond : (next value).Spelt follow second result)
    (hBetween : ∀ rest, follow rest → between (second.toList ++ rest)) :
    (phrase >>= next).Spelt follow (first ++ second) result := by
  obtain ⟨front, hFront, hSpells⟩ := hFirst
  obtain ⟨back, hBack, hSpells'⟩ := hSecond
  exact ⟨front ++ back, ⟨front, back, value, rfl, hFront, hBack⟩, hSpells.append hSpells' hBetween⟩

theorem Spelt.bind {phrase : Phrase α} {next : α → Phrase β} {follow : List Char → Prop}
    {first second : String} {value : α} {result : β} (hFirst : phrase.Spelt anyText first value)
    (hSecond : (next value).Spelt follow second result) :
    (phrase >>= next).Spelt follow (first ++ second) result :=
  hFirst.bindWith hSecond fun _ _ => trivial

/-- A phrase that is there without being written. -/
theorem Spelt.skip {phrase : Phrase α} {next : α → Phrase β} {follow : List Char → Prop} {text : String}
    {value : α} {result : β} (hPhrase : phrase [] value) (h : (next value).Spelt follow text result) :
    (phrase >>= next).Spelt follow text result := by
  obtain ⟨tokens, hNext, hSpells⟩ := h
  exact ⟨tokens, ⟨[], tokens, value, rfl, hPhrase, hNext⟩, hSpells⟩

theorem Spelt.map {phrase : Phrase α} {follow : List Char → Prop} {text : String} {value : α}
    (h : phrase.Spelt follow text value) (f : α → β) : (f <$> phrase).Spelt follow text (f value) := by
  obtain ⟨tokens, hPhrase, hSpells⟩ := h
  exact ⟨tokens, map_iff.mpr ⟨value, hPhrase, rfl⟩, hSpells⟩

theorem Spelt.imp {phrase : Phrase α} {other : Phrase β} {follow : List Char → Prop} {text : String}
    {value : α} {result : β} (h : phrase.Spelt follow text value)
    (hOther : ∀ tokens, phrase tokens value → other tokens result) :
    other.Spelt follow text result := by
  obtain ⟨tokens, hPhrase, hSpells⟩ := h
  exact ⟨tokens, hOther tokens hPhrase, hSpells⟩

theorem Spelt.inl {phrase : Phrase α} {follow : List Char → Prop} {text : String} {value : α}
    (h : phrase.Spelt follow text value) (other : Phrase α) : (phrase <|> other).Spelt follow text value :=
  h.imp fun _ => Or.inl

theorem Spelt.inr {phrase : Phrase α} {follow : List Char → Prop} {text : String} {value : α}
    (h : phrase.Spelt follow text value) (other : Phrase α) : (other <|> phrase).Spelt follow text value :=
  h.imp fun _ => Or.inr

theorem Spelt.afterSpace {phrase : Phrase α} {follow : List Char → Prop} {text : String} {value : α}
    (h : phrase.Spelt follow text value) : phrase.Spelt follow (" " ++ text) value := by
  obtain ⟨tokens, hPhrase, hSpells⟩ := h
  exact ⟨tokens, hPhrase, spells_space.append hSpells fun _ _ => trivial⟩

theorem endsWord_cons {c : Char} (h : isWordChar c = false) (rest : List Char) : EndsWord (c :: rest) := by
  intro d hd
  obtain rfl : c = d := by simpa using hd
  exact h

/-- A text that may stand right after a word. -/
def EndsBefore (text : String) : Prop :=
  ∃ c cs, text.toList = c :: cs ∧ isWordChar c = false

theorem EndsBefore.append {text : String} (h : EndsBefore text) (more : String) : EndsBefore (text ++ more) := by
  obtain ⟨c, cs, hText, hc⟩ := h
  exact ⟨c, cs ++ more.toList, by rw [String.toList_append, hText, List.cons_append], hc⟩

theorem EndsBefore.endsWord {text : String} (h : EndsBefore text) (rest : List Char) :
    EndsWord (text.toList ++ rest) := by
  obtain ⟨c, cs, hText, hc⟩ := h
  rw [hText, List.cons_append]
  exact endsWord_cons hc _

/-- Two texts, the second of which starts with a character that ends a word. -/
theorem Spelt.bindText {phrase : Phrase α} {next : α → Phrase β} {follow : List Char → Prop}
    {first second : String} {value : α} {result : β} (hFirst : phrase.Spelt EndsWord first value)
    (hSecond : (next value).Spelt follow second result) (hEnds : EndsBefore second) :
    (phrase >>= next).Spelt follow (first ++ second) result :=
  hFirst.bindWith hSecond fun rest _ => hEnds.endsWord rest

theorem Spelt.beforeSpace {phrase : Phrase α} {text : String} {value : α}
    (h : phrase.Spelt EndsWord text value) : phrase.Spelt anyText (text ++ " ") value := by
  obtain ⟨tokens, hPhrase, hSpells⟩ := h
  refine ⟨tokens, hPhrase, ?_⟩
  rw [← List.append_nil tokens]
  exact hSpells.append spells_space fun rest _ => endsWord_cons (by decide) rest

/-- Two texts with a space between them. -/
theorem Spelt.bindSpace {phrase : Phrase α} {next : α → Phrase β} {follow : List Char → Prop}
    {first second : String} {value : α} {result : β} (hFirst : phrase.Spelt EndsWord first value)
    (hSecond : (next value).Spelt follow second result) :
    (phrase >>= next).Spelt follow (first ++ " " ++ second) result :=
  hFirst.beforeSpace.bind hSecond

/-! ### Single tokens -/

theorem spelt_name {n : String} (h : isWord n = true) : name.Spelt EndsWord (writtenName n) n := by
  refine ⟨[.name n], name_iff.mpr rfl, ?_⟩
  unfold writtenName
  split
  · exact spells_escaped h
  · rename_i hKeyword
    rw [← tokenOfWord_of_not_isKeyword (Bool.eq_false_iff.mpr hKeyword)]
    exact spells_word h

theorem spelt_attributeName {n : String} (h : isWord n = true) :
    attributeName.Spelt EndsWord (writtenMemberName n) n := by
  refine ⟨[.name n], ⟨_, rfl, rfl⟩, ?_⟩
  unfold writtenMemberName
  split
  · exact spells_escaped h
  · rename_i hReserved
    rw [← tokenOfWord_of_not_isKeyword (isKeyword_of_not_isReservedWord (Bool.eq_false_iff.mpr hReserved))]
    exact spells_word h

theorem spelt_word {w : String} (h : isWord w = true) : word.Spelt EndsWord w w := by
  refine ⟨[Reading.tokenOfWord w], ⟨_, rfl, ?_⟩, spells_word h⟩
  cases hKeyword : Keyword.ofWord? w with
  | none => simp [Reading.tokenOfWord, hKeyword]
  | some k => simp [Reading.tokenOfWord, hKeyword, Keyword.text_of_ofWord?_eq_some hKeyword]

theorem spelt_string (text : String) : string.Spelt anyText (Quoted.quote text) text :=
  ⟨[.string text], string_iff.mpr rfl, spells_quote text⟩

theorem spelt_keyword (k : Keyword) : (keyword k).Spelt EndsWord k.text () :=
  ⟨[.keyword k], keyword_iff.mpr rfl, spells_keyword k⟩

theorem spelt_keywordValue {value? : Keyword → Option α} {k : Keyword} {value : α}
    (h : value? k = some value) : (keywordValue value?).Spelt EndsWord k.text value :=
  ⟨[.keyword k], keywordValue_iff.mpr ⟨k, rfl, h⟩, spells_keyword k⟩

theorem spelt_symbol {s : Symbol} (h : ∀ rest, s.Ends rest) : (symbol s).Spelt anyText s.text () :=
  ⟨[.symbol s], symbol_iff.mpr rfl, fun rest others _ => spells_symbol s rest others (h rest)⟩

end Phrase

end DomainAtlas
