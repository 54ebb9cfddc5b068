import DomainAtlas.Proofs.Token.Spans
import Mathlib.Data.List.Basic
import Mathlib.Data.List.Induction

/-! # Positions

A position counts the newlines before an offset and the characters behind the last of them. `Position.advance` says the
same character by character: a newline leads to the first column of the next line, any other character to the next
column. Each character leads further on, so no two offsets have one position.
-/
set_option autoImplicit false

namespace DomainAtlas

open Text

/-! ## Scanning -/

namespace Position

/-- The position behind `c` where `c` stands at `position`. -/
def advance (position : Position) (c : Char) : Position :=
  if c = '\n' then ⟨position.line + 1, 1⟩ else ⟨position.line, position.column + 1⟩

/-- Where a text that starts at `position` ends. -/
def scan (position : Position) (cs : List Char) : Position :=
  cs.foldl advance position

@[simp] theorem scan_nil (position : Position) : position.scan [] = position := rfl

@[simp] theorem scan_cons (position : Position) (c : Char) (cs : List Char) :
    position.scan (c :: cs) = (position.advance c).scan cs := rfl

@[simp] theorem scan_append (position : Position) (as bs : List Char) :
    position.scan (as ++ bs) = (position.scan as).scan bs :=
  List.foldl_append ..

theorem after_concat (cs : List Char) (c : Char) : after (cs ++ [c]) = (after cs).advance c := by
  rw [after, after, advance, List.reverse_concat]
  split
  · rename_i hNewline
    simp [hNewline]
  · rename_i hOther
    simp [hOther]

/-- Counting newlines and the characters behind the last of them amounts to scanning. -/
theorem after_eq_scan (cs : List Char) : after cs = (⟨1, 1⟩ : Position).scan cs := by
  induction cs using List.reverseRecOn with
  | nil => rfl
  | append_singleton cs c ih => rw [after_concat, ih, scan_append, scan_cons, scan_nil]

/-! ## The order of positions -/

/-- Lines count first, then columns. -/
def Precedes (a b : Position) : Prop :=
  a.line < b.line ∨ a.line = b.line ∧ a.column < b.column

theorem Precedes.trans {a b c : Position} (hab : a.Precedes b) (hbc : b.Precedes c) : a.Precedes c := by
  unfold Precedes at *
  omega

theorem Precedes.ne {a b : Position} (h : a.Precedes b) : a ≠ b := by
  rintro rfl
  unfold Precedes at h
  omega

theorem precedes_advance (position : Position) (c : Char) : position.Precedes (position.advance c) := by
  unfold advance
  split
  · exact .inl (Nat.lt_succ_self _)
  · exact .inr ⟨rfl, Nat.lt_succ_self _⟩

theorem precedes_scan (position : Position) {cs : List Char} (h : cs ≠ []) : position.Precedes (position.scan cs) := by
  induction cs generalizing position with
  | nil => exact absurd rfl h
  | cons c cs ih =>
    have hFirst := precedes_advance position c
    cases cs with
    | nil => exact hFirst
    | cons d cs => exact hFirst.trans (ih (position.advance c) (List.cons_ne_nil d cs))

/-! ## Texts of positions -/

theorem colon_not_mem_toDigits (n : Nat) : ':' ∉ Nat.toDigits 10 n := by
  intro h
  exact absurd (Nat.isDigit_of_mem_toDigits (by decide) (by decide) h) (by decide)

theorem toDigits_injective {m n : Nat} (h : Nat.toDigits 10 m = Nat.toDigits 10 n) : m = n := by
  have hValues := congrArg (Nat.ofDigitChars 10 · 0) h
  rwa [Nat.ofDigitChars_toDigits (by decide) (by decide), Nat.ofDigitChars_toDigits (by decide) (by decide)] at hValues

theorem toList_text (position : Position) :
    position.text.toList = Nat.toDigits 10 position.line ++ ':' :: Nat.toDigits 10 position.column := by
  rw [text, String.toList_append, String.toList_append, List.append_assoc, ← Nat.toList_repr, ← Nat.toList_repr]
  rfl

theorem text_injective {a b : Position} (h : a.text = b.text) : a = b := by
  have hLists := congrArg String.toList h
  rw [toList_text, toList_text,
    List.append_cons_inj_of_notMem (colon_not_mem_toDigits a.line) (colon_not_mem_toDigits a.column)] at hLists
  obtain ⟨hLine, -, hColumn⟩ := hLists
  obtain ⟨line, column⟩ := a
  exact congr (congrArg mk (toDigits_injective hLine)) (toDigits_injective hColumn)

end Position

/-! ## Positions in a source -/

theorem before?_byteLength (front back : List Char) : before? (byteLength front) (front ++ back) = some front := by
  induction front with
  | nil => rw [byteLength_nil, before?]
  | cons c front ih =>
    have hSize := c.utf8Size_pos
    obtain ⟨n, hn⟩ := Nat.exists_eq_succ_of_ne_zero (Nat.ne_of_gt (Nat.add_pos_left hSize (byteLength front)))
    have hRest : n + 1 - c.utf8Size = byteLength front := by omega
    rw [byteLength_cons, hn, List.cons_append, before?, if_pos (by omega), hRest, ih]
    rfl

theorem Span.position_of_append {source : String} {span : Span} {front back : List Char}
    (hSource : source.toList = front ++ back) (hStart : min span.start source.utf8ByteSize = byteLength front) :
    span.position source = (⟨1, 1⟩ : Position).scan front := by
  rw [utf8ByteSize_eq_byteLength] at hStart
  rw [Span.position, hStart, hSource, before?_byteLength, Option.getD_some, Position.after_eq_scan]

/-- The shorter of two beginnings of a text is the beginning of the other. -/
theorem exists_append_of_byteLength_lt {front back later rest : List Char} (h : front ++ back = later ++ rest)
    (hLess : byteLength front < byteLength later) : ∃ between, between ≠ [] ∧ later = front ++ between := by
  obtain ⟨between, hLater, -⟩ | ⟨between, hFront, -⟩ := List.append_eq_append_iff.mp h
  · refine ⟨between, ?_, hLater⟩
    rintro rfl
    rw [hLater, List.append_nil] at hLess
    exact Nat.lt_irrefl _ hLess
  · rw [hFront, byteLength_append] at hLess
    omega

theorem Span.position_precedes {source : String} {a b : Span} (ha : OffsetIn source.toList a.start)
    (hb : OffsetIn source.toList b.start) (hLess : a.start < b.start) :
    (a.position source).Precedes (b.position source) := by
  obtain ⟨front, back, hFront, hStart⟩ := ha
  obtain ⟨later, rest, hLater, hLaterStart⟩ := hb
  obtain ⟨between, hSome, rfl⟩ := exists_append_of_byteLength_lt (hFront.symm.trans hLater) (by omega)
  -- neither offset lies past the end, so nothing is cut off
  have hWithin : ∀ {front back : List Char} {span : Span}, source.toList = front ++ back →
      span.start = byteLength front → min span.start source.utf8ByteSize = byteLength front := by
    intro front back span hSource hSpan
    rw [utf8ByteSize_eq_byteLength, hSource, byteLength_append, hSpan]
    omega
  rw [position_of_append hFront (hWithin hFront hStart), position_of_append hLater (hWithin hLater hLaterStart),
    Position.scan_append]
  exact Position.precedes_scan _ hSome

/-- Positions are those that a scan of the source from its first line and column reaches, and offsets in their order
have positions in their order, all of them written apart. -/
theorem Span.position_eq_scan_and_increases (source : String) :
    (∀ (span : Span) (front back : List Char), source.toList = front ++ back →
      min span.start source.utf8ByteSize = byteLength front →
      span.position source = (⟨1, 1⟩ : Position).scan front) ∧
    ∀ a b : Span, OffsetIn source.toList a.start → OffsetIn source.toList b.start → a.start < b.start →
      (a.position source).Precedes (b.position source) ∧ (a.position source).text ≠ (b.position source).text := by
  refine ⟨fun span front back => position_of_append, fun a b ha hb hLess => ?_⟩
  have hPrecedes := position_precedes ha hb hLess
  exact ⟨hPrecedes, fun hText => hPrecedes.ne (Position.text_injective hText)⟩

/-- An accent takes two bytes and one column; the offset past the end counts as the end. -/
theorem Span.position_eq_scan_and_increases_accent :
    (Span.emptyAt 9).position "b\u00e9\n  x" = ⟨2, 4⟩ ∧
      ((Span.emptyAt 1).position "b\u00e9\n  x").Precedes ((Span.emptyAt 3).position "b\u00e9\n  x") := by
  obtain ⟨hScan, hOrder⟩ := position_eq_scan_and_increases "b\u00e9\n  x"
  refine ⟨?_, (hOrder (.emptyAt 1) (.emptyAt 3) ⟨['b'], _, rfl, rfl⟩ ⟨['b', '\u00e9'], _, rfl, rfl⟩ (by decide)).1⟩
  rw [hScan (.emptyAt 9) _ [] (List.append_nil _).symm (by decide)]
  rfl

end DomainAtlas
