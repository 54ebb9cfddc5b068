import DomainAtlas.Text.Bytes
/-!
# Spans and positions

A span is a range of byte offsets into a source text. A position is the line and the column at which a
span starts; both count from one, and columns count characters.
-/
set_option autoImplicit false

namespace DomainAtlas

structure Span where
  start : Nat
  stop : Nat
  start_le_stop : start ≤ stop := by omega
  deriving DecidableEq, Repr

namespace Span

/-- The range from `start` to `stop`, empty when `stop` lies before `start`. -/
def ofBounds (start stop : Nat) : Span where
  start := start
  stop := max stop start
  start_le_stop := Nat.le_max_right stop start

def emptyAt (offset : Nat) : Span where
  start := offset
  stop := offset
  start_le_stop := Nat.le_refl offset

instance : Inhabited Span := ⟨emptyAt 0⟩

def length (span : Span) : Nat :=
  span.stop - span.start

def isEmpty (span : Span) : Bool :=
  span.start == span.stop

/-- The least span that covers both. -/
def union (a b : Span) : Span where
  start := min a.start b.start
  stop := max a.stop b.stop
  start_le_stop := by
    have ha := a.start_le_stop
    omega

/-- The least span that covers all of them. -/
def unionAll? : List Span → Option Span
  | [] => none
  | span :: spans => some (spans.foldl union span)

end Span

/-- A value together with the span of its text. -/
structure Placed (α : Type) where
  value : α
  span : Span
  deriving DecidableEq, Repr

structure Position where
  line : Nat
  column : Nat
  deriving DecidableEq, Repr

namespace Position

def after (cs : List Char) : Position where
  line := cs.count '\n' + 1
  column := (cs.reverse.takeWhile (· != '\n')).length + 1

def text (position : Position) : String :=
  toString position.line ++ ":" ++ toString position.column

end Position

/-- The position of the start of `span`. Past the end it is the position of the end; inside a character
it is the position of the end too. -/
def Span.position (span : Span) (source : String) : Position :=
  let cs := source.toList
  Position.after ((Text.before? (min span.start (Text.byteLength cs)) cs).getD cs)

end DomainAtlas
