import DomainAtlas.Proofs.Printing.TextLines

/-! # Writing line by line

`Run` writes one line after another, from a pen that knows how deep it stands and what it has left behind, and keeps
the headers of the elements that it starts. What a pen knows is what the lines before it show, so the lines of a whole
run are well laid.
-/
set_option autoImplicit false

namespace DomainAtlas

open TextLine

/-- What stands last in the block that the pen is in. -/
inductive Room
  | opened
  | written
  | parted
  deriving DecidableEq

structure Pen where
  depth : Nat
  room : Room

open Pen

/-! ## What can be written -/

/-- What may follow the header of an element that is written on one line. -/
def bareEndings : List String :=
  ["", " \x7b\x7d"]

def headerEndings : List String :=
  " \x7b" :: bareEndings

structure IsHeader (header : String) : Prop where
  solid : Solid header
  starts : ∀ ending ∈ headerEndings, startsElement (header ++ ending).toList = true

/-- Where a line that opens no block may be written, and the headers in it: a property behind no blank line, an
element right behind no other line. -/
inductive Room.Admits (room : Room) : String → List String → Prop
  | property {content : String} (hPlain : startsElement content.toList = false) (hRoom : room ≠ .parted) :
      room.Admits content []
  | element {header ending : String} (hHeader : IsHeader header) (hEnding : ending ∈ bareEndings)
      (hRoom : room ≠ .written) : room.Admits (header ++ ending) [header]

/-- One line written, the headers in it, and the pen behind it. -/
inductive Pen.Writes : Pen → Line → List String → Pen → Prop
  | gap (depth : Nat) : Writes ⟨depth, .written⟩ .blank [] ⟨depth, .parted⟩
  | line {room : Room} {content : String} {headers : List String} (depth : Nat) (hSolid : Solid content)
      (hAdmits : room.Admits content headers) : Writes ⟨depth, room⟩ (.text depth content) headers ⟨depth, .written⟩
  | opening {room : Room} {header : String} (depth : Nat) (hHeader : IsHeader header) (hRoom : room ≠ .written) :
      Writes ⟨depth, room⟩ (.text depth (header ++ " \x7b")) [header] ⟨depth + 1, .opened⟩
  | closing (depth : Nat) : Writes ⟨depth + 1, .written⟩ (.text depth "\x7d") [] ⟨depth, .written⟩

inductive Pen.Run : Pen → List Line → List String → Pen → Prop
  | nil (pen : Pen) : Run pen [] [] pen
  | cons {pen next last : Pen} {line : Line} {lines : List Line} {headers more : List String}
      (hLine : Writes pen line headers next) (hLines : Run next lines more last) :
      Run pen (line :: lines) (headers ++ more) last

theorem Pen.Run.append {pen next last : Pen} {lines others : List Line} {headers more : List String}
    (h : Run pen lines headers next) (hOthers : Run next others more last) :
    Run pen (lines ++ others) (headers ++ more) last := by
  induction h with
  | nil => exact hOthers
  | cons hLine _ ih =>
    rw [List.cons_append, List.append_assoc]
    exact .cons hLine (ih hOthers)

theorem Pen.Writes.run {pen next : Pen} {line : Line} {headers : List String} (h : Writes pen line headers next) :
    Run pen [line] headers next := by
  have hRun := Run.cons h (.nil next)
  rwa [List.append_nil] at hRun

/-- A run stopped before and behind one of its lines. -/
theorem Pen.Run.at {pen last : Pen} {before after : List Line} {line : Line} {headers : List String}
    (h : Run pen (before ++ line :: after) headers last) :
    ∃ mid next front here back, Run pen before front mid ∧ Writes mid line here next ∧ Run next after back last := by
  induction before generalizing pen headers with
  | nil =>
    cases h with
    | cons hLine hLines => exact ⟨pen, _, [], _, _, .nil pen, hLine, hLines⟩
  | cons first before ih =>
    cases h with
    | cons hLine hLines =>
      obtain ⟨mid, next, front, here, back, hFront, hHere, hBack⟩ := ih hLines
      exact ⟨mid, next, _, here, back, .cons hLine hFront, hHere, hBack⟩

theorem Solid.bare {header ending : String} (h : Solid header) (hEnding : ending ∈ bareEndings) :
    Solid (header ++ ending) := by
  rw [bareEndings, List.mem_cons, List.mem_singleton] at hEnding
  rcases hEnding with rfl | rfl
  · rwa [String.append_empty]
  · exact h.closed

/-! ## What the lines before a pen show -/

def Room.Behind (before : List (List Char)) : Room → Prop
  | .opened => before = [] ∨ ∃ previous ∈ before.getLast?, opens previous = true
  | .written => ∃ previous ∈ before.getLast?, isGap previous = false ∧ opens previous = false
  | .parted => ∃ earlier previous gap, before = earlier ++ [previous, gap] ∧ isGap gap = true ∧
      isGap previous = false ∧ opens previous = false

/-- The pen stands where the lines before it say. -/
structure Pen.Behind (before : List (List Char)) (pen : Pen) : Prop where
  depth : (pen.depth : Int) = depthAfter before
  room : pen.room.Behind before

section Before

variable {before : List (List Char)} {line : List Char} {opening closing : Bool}

theorem depthAfter_concat {gap : Bool} (h : Shows line gap opening closing) :
    depthAfter (before ++ [line]) = depthAfter before + opening.toNat - closing.toNat := by
  simp only [depthAfter, List.countP_append, List.countP_singleton, h.opens, h.closes]
  cases opening <;> cases closing <;> simp <;> omega

theorem written_behind (h : Shows line false false closing) : Room.written.Behind (before ++ [line]) :=
  ⟨line, by simp, h.isGap, h.opens⟩

theorem opened_behind (h : Shows line false true closing) : Room.opened.Behind (before ++ [line]) :=
  .inr ⟨line, by simp, h.opens⟩

theorem parted_behind (h : Shows line true opening closing) (hBefore : Room.written.Behind before) :
    Room.parted.Behind (before ++ [line]) := by
  obtain ⟨previous, hLast, hPrevious⟩ := hBefore
  obtain ⟨earlier, rfl⟩ := List.getLast?_eq_some_iff.mp hLast
  exact ⟨earlier, previous, line, List.append_assoc .., h.isGap, hPrevious⟩

end Before

variable {pen next last : Pen} {line : Line} {lines : List Line} {headers : List String}

theorem Pen.Writes.behind (h : Writes pen line headers next) (width : Nat) {before : List (List Char)}
    (hBefore : pen.Behind before) : next.Behind (before ++ [line.row width]) := by
  obtain ⟨hDepth, hRoom⟩ := hBefore
  -- only a blank line needs to know what stands before it
  cases h with
  | gap depth =>
    have hShows : Shows (Line.blank.row width) true false false := shows_gap
    exact ⟨by rw [depthAfter_concat hShows, ← hDepth]; simp, parted_behind hShows hRoom⟩
  | line depth hSolid =>
    have hShows : Shows ((Line.text depth _).row width) false false false := hSolid.shows
    exact ⟨by rw [depthAfter_concat hShows, ← hDepth]; simp, written_behind hShows⟩
  | opening depth hHeader =>
    have hShows : Shows ((Line.text depth _).row width) false true false := hHeader.solid.shows_opening
    exact ⟨by rw [depthAfter_concat hShows, ← hDepth]; simp, opened_behind hShows⟩
  | closing depth =>
    have hShows : Shows ((Line.text depth "\x7d").row width) false false true := shows_closing
    exact ⟨by rw [depthAfter_concat hShows, ← hDepth]; simp, written_behind hShows⟩

theorem Pen.Run.behind (h : Run pen lines headers last) (width : Nat) {before : List (List Char)}
    (hBefore : pen.Behind before) : last.Behind (before ++ lines.map (Line.row width)) := by
  induction h generalizing before with
  | nil => rwa [List.map_nil, List.append_nil]
  | cons hLine _ ih =>
    -- the lines behind this one are written with it before them
    rw [List.map_cons, ← List.singleton_append, ← List.append_assoc]
    exact ih (hLine.behind width hBefore)

/-! ## Runs as texts -/

theorem Pen.Writes.oneLine (h : Writes pen line headers next) (width : Nat) : '\n' ∉ line.row width := by
  cases h with
  | gap => exact List.not_mem_nil
  | line _ hSolid => exact oneLine_row hSolid.oneLine
  | opening _ hHeader =>
    refine oneLine_row ?_
    rw [String.toList_append, List.mem_append, not_or]
    exact ⟨hHeader.solid.oneLine, by decide⟩
  | closing => exact oneLine_row (by decide)

theorem Pen.Writes.trimmed (h : Writes pen line headers next) (width : Nat) :
    ∀ c ∈ (line.row width).getLast?, Text.isBlank c = false := by
  cases h with
  | gap => exact fun c hc => absurd hc (Option.not_mem_none c)
  | line _ hSolid => exact trimmed_row (hSolid.last.imp fun _ hLast => ⟨hLast.1, hLast.2.1⟩)
  | opening _ hHeader =>
    refine trimmed_row ⟨'\x7b', ?_, by decide⟩
    rw [String.toList_append, List.getLast?_append]
    rfl
  | closing => exact trimmed_row ⟨'\x7d', rfl, by decide⟩

theorem Pen.Writes.indented (h : Writes pen line headers next) (width : Nat) (hGap : isGap (line.row width) = false) :
    (indentation (line.row width) : Int) = width * (pen.depth - if closes (line.row width) then 1 else 0) := by
  cases h with
  | gap => cases hGap
  | line depth hSolid =>
    rw [hSolid.shows.closes, indentation_row hSolid.inked]
    simp [Int.mul_comm]
  | opening depth hHeader =>
    rw [hHeader.solid.shows_opening.closes, indentation_row (hHeader.solid.inked_append _)]
    simp [Int.mul_comm]
  | closing depth =>
    rw [shows_closing.closes, indentation_row inked_brace]
    simp [Int.mul_comm]

/-- The pen is behind a line that is not blank when it leaves a blank line. -/
theorem Pen.Writes.room_of_isGap (h : Writes pen line headers next) {width : Nat}
    (hGap : isGap (line.row width) = true) : pen.room = .written ∧ next.room = .parted := by
  cases h with
  | gap => exact ⟨rfl, rfl⟩
  | line _ hSolid =>
    rw [hSolid.shows.isGap] at hGap
    cases hGap
  | opening _ hHeader =>
    rw [hHeader.solid.shows_opening.isGap] at hGap
    cases hGap
  | closing =>
    rw [shows_closing.isGap] at hGap
    cases hGap

theorem Pen.Writes.behind_gap (h : Writes pen line headers next) (hRoom : pen.room = .parted) (width : Nat) :
    isGap (line.row width) = false ∧ closes (line.row width) = false := by
  cases h with
  | gap => cases hRoom
  | line _ hSolid => exact ⟨hSolid.shows.isGap, hSolid.shows.closes⟩
  | opening _ hHeader => exact ⟨hHeader.solid.shows_opening.isGap, hHeader.solid.shows_opening.closes⟩
  | closing => cases hRoom

/-- The line starts with the header. -/
def Heads (header : String) (line : List Char) : Prop :=
  ∃ ending ∈ headerEndings, TextLine.content line = (header ++ ending).toList

theorem IsHeader.row {header ending : String} (h : IsHeader header) (hEnding : ending ∈ headerEndings)
    {depth width : Nat} : startsElement ((Line.text depth (header ++ ending)).row width) = true ∧
      Heads header ((Line.text depth (header ++ ending)).row width) := by
  have hInk := h.solid.inked_append ending
  rw [startsElement_row hInk]
  exact ⟨h.starts ending hEnding, ending, hEnding, content_row hInk⟩

/-- A line that starts an element is written behind no other line and has the header in it; the other lines have
none. -/
theorem Pen.Writes.starts (h : Writes pen line headers next) (width : Nat) :
    (startsElement (line.row width) = false ∧ headers = []) ∨
      (startsElement (line.row width) = true ∧ pen.room ≠ .written ∧
        ∃ header, headers = [header] ∧ Heads header (line.row width)) := by
  cases h with
  | gap => exact .inl ⟨rfl, rfl⟩
  | line _ hSolid hAdmits =>
    cases hAdmits with
    | property hPlain => exact .inl ⟨by rw [startsElement_row hSolid.inked, hPlain], rfl⟩
    | element hHeader hEnding hRoom =>
      obtain ⟨hStart, hHeads⟩ := hHeader.row (List.mem_cons_of_mem _ hEnding)
      exact .inr ⟨hStart, hRoom, _, rfl, hHeads⟩
  | opening _ hHeader hRoom =>
    obtain ⟨hStart, hHeads⟩ := hHeader.row List.mem_cons_self
    exact .inr ⟨hStart, hRoom, _, rfl, hHeads⟩
  | closing => exact .inl ⟨by rw [startsElement_row inked_brace]; rfl, rfl⟩

theorem Pen.Run.heads (h : Run pen lines headers last) (width : Nat) :
    List.Forall₂ Heads headers ((lines.map (Line.row width)).filter startsElement) := by
  induction h with
  | nil => exact .nil
  | cons hLine _ ih =>
    rw [List.map_cons]
    rcases hLine.starts width with ⟨hPlain, rfl⟩ | ⟨hStart, -, header, rfl, hHeads⟩
    · rwa [List.filter_cons_of_neg (by rw [hPlain]; exact Bool.false_ne_true)]
    · rw [List.filter_cons_of_pos hStart]
      exact .cons hHeads ih

theorem Pen.Run.oneLine (h : Run pen lines headers last) (width : Nat) : ∀ line ∈ lines, '\n' ∉ line.row width := by
  induction h with
  | nil => exact List.forall_mem_nil _
  | cons hLine _ ih => exact List.forall_mem_cons.mpr ⟨hLine.oneLine width, ih⟩

theorem behind_start : (⟨0, .opened⟩ : Pen).Behind [] :=
  ⟨rfl, .inl rfl⟩

/-- One line of a run, with the pens before and behind it and what they show. -/
theorem Pen.Run.row_at {room : Room} (h : Run ⟨0, .opened⟩ lines headers ⟨0, room⟩) {width : Nat}
    {before after : List (List Char)} {row : List Char} (hRows : lines.map (Line.row width) = before ++ row :: after) :
    ∃ (pen next : Pen) (line : Line) (here : List String) (others : List Line) (back : List String),
      pen.Behind before ∧ Writes pen line here next ∧ Run next others back ⟨0, room⟩ ∧ row = line.row width ∧
        after = others.map (Line.row width) := by
  obtain ⟨front, rest, rfl, rfl, hRest⟩ := List.map_eq_append_iff.mp hRows
  obtain ⟨line, others, rfl, rfl, rfl⟩ := List.map_eq_cons_iff.mp hRest
  obtain ⟨pen, next, _, here, back, hFront, hHere, hBack⟩ := h.at
  exact ⟨pen, next, line, here, others, back, hFront.behind width behind_start, hHere, hBack, rfl, rfl⟩

theorem Pen.Run.wellLaid {room : Room} (h : Run ⟨0, .opened⟩ lines headers ⟨0, room⟩) (hRoom : room ≠ .parted)
    (width : Nat) : WellLaid width (lines.map (Line.row width)) where
  indented := by
    intro before row after hRows hGap
    obtain ⟨pen, next, line, here, others, back, hBehind, hHere, -, rfl, -⟩ := h.row_at hRows
    rw [← hBehind.depth]
    exact hHere.indented width hGap
  balanced := (h.behind width behind_start).depth.symm
  trimmed := by
    intro row hRow
    obtain ⟨before, after, hRows⟩ := List.append_of_mem hRow
    obtain ⟨pen, next, line, here, others, back, -, hHere, -, rfl, -⟩ := h.row_at hRows
    exact hHere.trimmed width
  gaps := by
    intro before row after hRows hGap
    obtain ⟨pen, next, line, here, others, back, hBehind, hHere, hBack, rfl, rfl⟩ := h.row_at hRows
    obtain ⟨hPen, hNext⟩ := hHere.room_of_isGap hGap
    have hBefore := hBehind.room
    rw [hPen] at hBefore
    refine ⟨hBefore, ?_⟩
    -- a run does not end behind a blank line, so there is a line after it
    cases hBack with
    | nil => exact absurd hNext hRoom
    | cons hAfter => exact ⟨_, rfl, hAfter.behind_gap hNext width⟩
  separated := by
    intro before row after hRows hStart
    obtain ⟨pen, next, line, here, others, back, hBehind, hHere, -, rfl, -⟩ := h.row_at hRows
    rcases hHere.starts width with ⟨hPlain, -⟩ | ⟨-, hNot, -⟩
    · rw [hPlain] at hStart
      cases hStart
    · have hBefore := hBehind.room
      cases hPen : pen.room with
      | written => exact absurd hPen hNot
      | opened =>
        rw [hPen] at hBefore
        rcases hBefore with hFirst | hOpened
        · exact .inl hFirst
        · exact .inr (.inl hOpened)
      | parted =>
        rw [hPen] at hBefore
        obtain ⟨earlier, previous, gap, rfl, hGap, hPrevious, -⟩ := hBefore
        exact .inr (.inr ⟨earlier, previous, gap, rfl, hPrevious, hGap⟩)

end DomainAtlas
