import DomainAtlas.Token.Lexer

/-! # Where lexemes and faults lie

A span marks some characters of a source: both of its ends lie between characters. The spans of the pieces that a
source is cut into mark one character each at least, and none starts before the one before it has ended.
-/
set_option autoImplicit false

namespace DomainAtlas

open Text

/-! ## Offsets -/

theorem byteLength_pos {cs : List Char} (h : cs ≠ []) : 0 < byteLength cs := by
  obtain ⟨c, others, rfl⟩ := List.exists_cons_of_ne_nil h
  have hSize := c.utf8Size_pos
  rw [byteLength_cons]
  omega

/-- The offset of a character of the text, or that of its end. -/
def OffsetIn (cs : List Char) (offset : Nat) : Prop :=
  ∃ front back, cs = front ++ back ∧ offset = byteLength front

theorem utf8ByteSize_ofList (cs : List Char) : (String.ofList cs).utf8ByteSize = byteLength cs := by
  induction cs with
  | nil => rfl
  | cons c cs ih =>
    rw [← List.singleton_append, String.ofList_append, String.utf8ByteSize_append, ih,
      ← String.singleton_eq_ofList, String.utf8ByteSize_singleton, List.singleton_append, byteLength_cons]

theorem utf8ByteSize_eq_byteLength (source : String) : source.utf8ByteSize = byteLength source.toList := by
  rw [← utf8ByteSize_ofList, String.ofList_toList]

/-- Offsets are counted in bytes, and none of them falls inside a character. -/
theorem isValid_of_offsetIn {source : String} {offset : Nat} (h : OffsetIn source.toList offset) :
    String.Pos.Raw.IsValid source ⟨offset⟩ := by
  obtain ⟨front, back, hText, rfl⟩ := h
  refine String.Pos.Raw.isValid_iff_exists_append.mpr ⟨.ofList front, .ofList back, ?_, ?_⟩
  · rw [← String.ofList_append, ← hText, String.ofList_toList]
  · rw [← utf8ByteSize_ofList]
    rfl

theorem offsetIn_zero (cs : List Char) : OffsetIn cs 0 :=
  ⟨[], cs, rfl, rfl⟩

structure Span.Within (span : Span) (cs : List Char) : Prop where
  start : OffsetIn cs span.start
  stop : OffsetIn cs span.stop

theorem within_ofBounds (front slice back : List Char) :
    (Span.ofBounds (byteLength front) (byteLength front + byteLength slice)).Within (front ++ (slice ++ back)) where
  start := ⟨front, slice ++ back, rfl, rfl⟩
  stop := by
    refine ⟨front ++ slice, back, (List.append_assoc ..).symm, ?_⟩
    rw [byteLength_append]
    exact Nat.max_eq_left (Nat.le_add_right _ _)

theorem within_emptyAt {cs : List Char} {offset : Nat} (h : OffsetIn cs offset) :
    (Span.emptyAt offset).Within cs :=
  ⟨h, h⟩

theorem Span.Within.union {a b : Span} {cs : List Char} (ha : a.Within cs) (hb : b.Within cs) :
    (a.union b).Within cs where
  start := by
    rcases Nat.le_total a.start b.start with h | h
    · simpa [Span.union, Nat.min_eq_left h] using ha.start
    · simpa [Span.union, Nat.min_eq_right h] using hb.start
  stop := by
    rcases Nat.le_total a.stop b.stop with h | h
    · simpa [Span.union, Nat.max_eq_right h] using hb.stop
    · simpa [Span.union, Nat.max_eq_left h] using ha.stop

theorem within_foldl_union {cs : List Char} {span : Span} {spans : List Span} (hSpan : span.Within cs)
    (hSpans : ∀ other ∈ spans, other.Within cs) : (spans.foldl Span.union span).Within cs := by
  induction spans generalizing span with
  | nil => exact hSpan
  | cons first others ih =>
    obtain ⟨hFirst, hOthers⟩ := List.forall_mem_cons.mp hSpans
    exact ih (hSpan.union hFirst) hOthers

theorem start_foldl_union {span : Span} {spans : List Span} (h : ∀ other ∈ spans, span.start ≤ other.start) :
    (spans.foldl Span.union span).start = span.start := by
  induction spans generalizing span with
  | nil => rfl
  | cons first others ih =>
    obtain ⟨hFirst, hOthers⟩ := List.forall_mem_cons.mp h
    have hStart : (span.union first).start = span.start := Nat.min_eq_left hFirst
    rw [List.foldl_cons, ih (hStart ▸ hOthers), hStart]

/-- The spans mark characters of the text, and each of them starts where the one before it ends or later. -/
structure Laid (cs : List Char) (spans : List Span) : Prop where
  within : ∀ span ∈ spans, span.Within cs
  nonempty : ∀ span ∈ spans, span.start < span.stop
  ordered : spans.Pairwise fun a b => a.stop ≤ b.start

theorem Laid.sublist {cs : List Char} {spans fewer : List Span} (h : Laid cs spans) (hFewer : fewer.Sublist spans) :
    Laid cs fewer where
  within span hSpan := h.within span (hFewer.subset hSpan)
  nonempty span hSpan := h.nonempty span (hFewer.subset hSpan)
  ordered := h.ordered.sublist hFewer

theorem Laid.starts_increase {cs : List Char} {spans : List Span} (h : Laid cs spans) :
    spans.Pairwise fun a b => a.start < b.start :=
  h.ordered.imp_of_mem fun {a _} ha _ hOrder => Nat.lt_of_lt_of_le (h.nonempty a ha) hOrder

/-! ## Readings -/

namespace Reading

/-- The text before what a reading is about. -/
def lead : Reading → List Char
  | lexeme _ _ _ => []
  | fault _ lead _ _ _ => lead

/-- What a reading is about: the lexeme, or the culprit of the fault. -/
def mark : Reading → List Char
  | lexeme _ slice _ => slice
  | fault _ _ culprit _ _ => culprit

theorem exists_consumed_eq (reading : Reading) :
    ∃ skipped, reading.consumed = reading.lead ++ (reading.mark ++ skipped) := by
  cases reading with
  | lexeme content slice rest => exact ⟨[], (List.append_nil slice).symm⟩
  | fault kind lead culprit skipped rest => exact ⟨skipped, rfl⟩

theorem mark_skippingWord (kind : Fault) (lead culprit after : List Char) :
    (skippingWord kind lead culprit after).mark = culprit := by
  unfold skippingWord
  split <;> rfl

theorem mark_skippingString (kind : Fault) (lead culprit after : List Char) :
    (skippingString kind lead culprit after).mark = culprit := by
  unfold skippingString
  split <;> rfl

theorem mark_plain_ne_nil (c : Char) (cs : List Char) : (plain c cs).mark ≠ [] := by
  unfold plain
  split
  · rename_i symbol _
    exact List.ne_nil_of_length_pos symbol.length_text_pos
  · split
    · simp [mark]
    · split
      · simp [mark]
      · unfold unexpected
        split <;> simp [mark]

/-- Every reading is about a character at least. -/
theorem mark_ofChars_ne_nil (c : Char) (cs : List Char) : (ofChars c cs).mark ≠ [] := by
  unfold ofChars
  split
  · simp [lineComment, mark]
  · split
    · unfold blockComment
      split
      · simp [mark]
      · simp [mark_skippingWord]
    · split
      · unfold quoted
        split
        · simp [mark]
        · simp [mark_skippingWord]
        · simp [mark_skippingString]
      · split
        · unfold escaped spanWord
          split
          split
          · simp [mark]
          · simp [mark_skippingWord]
        · split
          · rename_i h
            simp [word, spanWord, mark, isWordChar_of_isWordStart h]
          · exact mark_plain_ne_nil c cs

end Reading

/-! ## Pieces -/

namespace Piece

def span : Piece → Span
  | lexeme l => l.span
  | fault _ span => span

def fault? : Piece → Option (Placed Fault)
  | lexeme _ => none
  | fault kind span => some ⟨kind, span⟩

theorem diagnostic?_eq (piece : Piece) :
    piece.diagnostic? = piece.fault?.map fun placed => placed.value.diagnostic placed.span := by
  cases piece <;> rfl

end Piece

theorem span_piece (start : Nat) (reading : Reading) :
    (reading.piece start).span = .ofBounds (start + byteLength reading.lead)
      (start + byteLength reading.lead + byteLength reading.mark) := by
  cases reading <;> rfl

theorem laid_lex_append (front cs : List Char) :
    Laid (front ++ cs) ((lex (byteLength front) cs).map Piece.span) ∧
      ∀ piece ∈ lex (byteLength front) cs, byteLength front ≤ piece.span.start := by
  generalize hStart : byteLength front = start
  fun_induction lex start cs generalizing front with
  | case1 => exact ⟨⟨by simp, by simp, .nil⟩, by simp⟩
  | case2 start c cs reading ih =>
    subst hStart
    have hText : reading.consumed ++ reading.rest = c :: cs := Reading.text_ofChars c cs
    obtain ⟨skipped, hConsumed⟩ := reading.exists_consumed_eq
    have hNext : byteLength (front ++ reading.consumed) = byteLength front + byteLength reading.consumed :=
      byteLength_append ..
    obtain ⟨hLaid, hAfter⟩ := ih (front ++ reading.consumed) hNext
    rw [List.append_assoc, hText] at hLaid
    -- the first piece marks what the reading is about, which the consumed text covers
    have hSpan := span_piece (byteLength front) reading
    rw [← byteLength_append] at hSpan
    have hWithin := within_ofBounds (front ++ reading.lead) reading.mark (skipped ++ reading.rest)
    rw [← hSpan, List.append_assoc, ← List.append_assoc reading.mark, ← List.append_assoc reading.lead,
      ← hConsumed, hText] at hWithin
    have hMark := byteLength_pos (Reading.mark_ofChars_ne_nil c cs)
    have hBytes := congrArg byteLength hConsumed
    simp only [byteLength_append] at hBytes hSpan
    have hSpanStart : (reading.piece (byteLength front)).span.start = byteLength front + byteLength reading.lead :=
      congrArg Span.start hSpan
    have hSpanStop : (reading.piece (byteLength front)).span.stop =
        byteLength front + byteLength reading.lead + byteLength reading.mark :=
      (congrArg Span.stop hSpan).trans (Nat.max_eq_left (Nat.le_add_right _ _))
    refine ⟨⟨?_, ?_, ?_⟩, ?_⟩
    · rw [List.map_cons]
      exact List.forall_mem_cons.mpr ⟨hWithin, hLaid.within⟩
    · rw [List.map_cons]
      refine List.forall_mem_cons.mpr ⟨?_, hLaid.nonempty⟩
      rw [hSpanStart, hSpanStop]
      exact Nat.lt_add_of_pos_right hMark
    · rw [List.map_cons]
      refine List.pairwise_cons.mpr ⟨fun span hSpan => ?_, hLaid.ordered⟩
      obtain ⟨piece, hPiece, rfl⟩ := List.mem_map.mp hSpan
      have hLater := hAfter piece hPiece
      omega
    · refine List.forall_mem_cons.mpr ⟨by omega, fun piece hPiece => ?_⟩
      have hLater := hAfter piece hPiece
      omega

/-- The pieces of a source follow one another. -/
theorem laid_lex (cs : List Char) : Laid cs ((lex 0 cs).map Piece.span) :=
  (laid_lex_append [] cs).1

theorem filterMap_map_sublist {α β γ : Type} {f : α → Option β} {g : α → γ} {k : β → γ}
    (h : ∀ a b, f a = some b → k b = g a) (as : List α) : ((as.filterMap f).map k).Sublist (as.map g) := by
  induction as with
  | nil => exact .slnil
  | cons a as ih =>
    cases hf : f a with
    | none =>
      rw [List.filterMap_cons_none hf, List.map_cons]
      exact ih.cons _
    | some b =>
      rw [List.filterMap_cons_some hf, List.map_cons, List.map_cons, h a b hf]
      exact ih.cons_cons _

theorem laid_faults (cs : List Char) : Laid cs (((lex 0 cs).filterMap Piece.fault?).map (·.span)) := by
  refine (laid_lex cs).sublist (filterMap_map_sublist ?_ _)
  intro piece placed hPlaced
  cases piece with
  | lexeme l => cases hPlaced
  | fault kind span =>
    cases hPlaced
    rfl

/-- So do the tokens of a source. -/
theorem laid_tokens (cs : List Char) :
    Laid cs ((tokensOf ((lex 0 cs).filterMap Piece.lexeme?)).map (·.span)) := by
  have hLexemes : (((lex 0 cs).filterMap Piece.lexeme?).map (·.span)).Sublist ((lex 0 cs).map Piece.span) := by
    refine filterMap_map_sublist ?_ _
    intro piece l hLexeme
    cases piece with
    | lexeme l =>
      cases hLexeme
      rfl
    | fault kind span => cases hLexeme
  refine (laid_lex cs).sublist (.trans (filterMap_map_sublist ?_ _) hLexemes)
  rintro ⟨content, span⟩ placed hToken
  cases content with
  | token t =>
    cases hToken
    rfl
  | trivia trivia => cases hToken

end DomainAtlas
