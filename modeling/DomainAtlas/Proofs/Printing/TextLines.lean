import DomainAtlas.Proofs.Printing.Blocks

/-! # Lines of a document

What a document's layout looks like on the text alone: how far a line is indented, whether it opens or closes a
block, whether it starts an element. `WellLaid` says that these agree with each other. Nothing here knows the depth
at which a line was written.
-/
set_option autoImplicit false

namespace DomainAtlas

open Text (isBlank)

/-- The lines of a text in which each one is ended by a newline. -/
def textLines (text : String) : List (List Char) :=
  (text.toList.splitOn '\n').dropLast

namespace TextLine

def indentation (line : List Char) : Nat :=
  (line.takeWhile (· == ' ')).length

def content (line : List Char) : List Char :=
  line.dropWhile (· == ' ')

def isGap (line : List Char) : Bool :=
  line.all isBlank

def opens (line : List Char) : Bool :=
  [' ', '\x7b'].isSuffixOf line

def closes (line : List Char) : Bool :=
  content line == ['\x7d']

/-- How many of the blocks opened in these lines are not closed in them. -/
def depthAfter (lines : List (List Char)) : Int :=
  lines.countP opens - lines.countP closes

/-- The keywords that an element starts with. -/
def elementKeywords : List Keyword :=
  [.contextMap, .boundedContext, .module, .aggregate, .entity, .valueObject, .domainEvent, .command, .service]

/-- The keywords that stand between two contexts. -/
def relationKeywords : List Keyword :=
  [.partnership, .sharedKernel]

def isWordOf (keywords : List Keyword) (word : List Char) : Bool :=
  keywords.any fun keyword => keyword.text.toList == word

/-- Whether a word behind the name of a context tells how it is related to another one. -/
def relates (word : List Char) : Bool :=
  isWordOf relationKeywords word || word.head? == some '['

/-- Whether the line starts an element, as far as can be seen on its first two words. -/
def startsElement (line : List Char) : Bool :=
  let words := (content line).splitOn ' '
  words[0]?.any (isWordOf elementKeywords) || words[1]?.any relates

end TextLine

open TextLine

/-- Lines whose indentation tells how deep they stand, with single blank lines between elements. -/
structure WellLaid (width : Nat) (lines : List (List Char)) : Prop where
  indented : ∀ before line after, lines = before ++ line :: after → isGap line = false →
    (indentation line : Int) = width * (depthAfter before - if closes line then 1 else 0)
  balanced : depthAfter lines = 0
  trimmed : ∀ line ∈ lines, ∀ c ∈ line.getLast?, isBlank c = false
  gaps : ∀ before line after, lines = before ++ line :: after → isGap line = true →
    (∃ previous ∈ before.getLast?, isGap previous = false ∧ opens previous = false) ∧
      ∃ next ∈ after.head?, isGap next = false ∧ closes next = false
  separated : ∀ before line after, lines = before ++ line :: after → startsElement line = true →
    before = [] ∨ (∃ previous ∈ before.getLast?, opens previous = true) ∨
      ∃ earlier previous gap, before = earlier ++ [previous, gap] ∧ isGap previous = false ∧ isGap gap = true

/-! ## Rows -/

/-- A line as it stands in the text, without the newline. -/
def Line.row (width : Nat) : Line → List Char
  | blank => []
  | text depth content => List.replicate (depth * width) ' ' ++ content.toList

theorem Line.toList_render (width : Nat) (line : Line) : (line.render width).toList = line.row width ++ ['\n'] := by
  cases line with
  | blank => simp [render, row]
  | text depth content => simp [render, row]

theorem textLines_linesText {width : Nat} {lines : List Line} (h : ∀ line ∈ lines, '\n' ∉ line.row width) :
    textLines (linesText width lines) = lines.map (Line.row width) := by
  induction lines with
  | nil => rfl
  | cons line lines ih =>
    obtain ⟨hLine, hLines⟩ := List.forall_mem_cons.mp h
    have hSplit : (linesText width (line :: lines)).toList.splitOn '\n' =
        line.row width :: (linesText width lines).toList.splitOn '\n' := by
      rw [linesText_cons, String.toList_append, Line.toList_render, List.append_assoc, List.singleton_append,
        List.splitOn_append_cons_self_of_not_mem hLine]
    rw [textLines, hSplit, List.dropLast_cons_of_ne_nil (List.splitOn_ne_nil '\n' _), ← textLines, ih hLines,
      List.map_cons]

theorem linesText_eq_empty_or_ends (width : Nat) (lines : List Line) :
    linesText width lines = "" ∨ ∃ front, linesText width lines = front ++ "\n" := by
  rcases List.eq_nil_or_concat' lines with rfl | ⟨front, line, rfl⟩
  · exact .inl (linesText_nil width)
  · right
    rw [linesText_append, linesText_cons, linesText_nil, String.append_empty]
    cases line with
    | blank => exact ⟨linesText width front, rfl⟩
    | text depth content => exact ⟨_, (String.append_assoc ..).symm⟩

/-! ## Contents -/

/-- What a line can hold without being taken for a blank line, or for one that opens or closes a block. -/
structure Solid (content : String) : Prop where
  head : ∃ c ∈ content.toList.head?, isBlank c = false ∧ c ≠ '\x7d'
  last : ∃ c ∈ content.toList.getLast?, isBlank c = false ∧ c ≠ '\x7b'
  oneLine : '\n' ∉ content.toList

/-- No blank stands in front, so that the indentation ends here. -/
def Inked (cs : List Char) : Prop :=
  ∃ c ∈ cs.head?, isBlank c = false

/-- What can be seen on a line: whether it is blank, opens a block, closes one. -/
structure Shows (line : List Char) (gap opening closing : Bool) : Prop where
  isGap : isGap line = gap
  opens : opens line = opening
  closes : closes line = closing

section Rows

variable {depth width : Nat} {content : String}

theorem takeWhile_spaces {cs : List Char} (h : Inked cs) (count : Nat) :
    (List.replicate count ' ' ++ cs).takeWhile (· == ' ') = List.replicate count ' ' := by
  obtain ⟨c, hHead, hInk⟩ := h
  obtain ⟨others, rfl⟩ := List.head?_eq_some_iff.mp hHead
  have hSpace : (c == ' ') = false := by
    rw [beq_eq_false_iff_ne]
    rintro rfl
    exact absurd hInk (by decide)
  rw [List.takeWhile_append_of_pos (by simp), List.takeWhile_cons, hSpace]
  exact List.append_nil _

theorem dropWhile_spaces {cs : List Char} (h : Inked cs) (count : Nat) :
    (List.replicate count ' ' ++ cs).dropWhile (· == ' ') = cs := by
  have hSplit := List.takeWhile_append_dropWhile (p := (· == ' ')) (l := List.replicate count ' ' ++ cs)
  rw [takeWhile_spaces h] at hSplit
  exact List.append_cancel_left hSplit

theorem indentation_row (h : Inked content.toList) :
    indentation ((Line.text depth content).row width) = depth * width := by
  rw [indentation, Line.row, takeWhile_spaces h, List.length_replicate]

theorem content_row (h : Inked content.toList) :
    TextLine.content ((Line.text depth content).row width) = content.toList := by
  rw [TextLine.content, Line.row, dropWhile_spaces h]

theorem isGap_row (h : Inked content.toList) :
    isGap ((Line.text depth content).row width) = false := by
  obtain ⟨c, hHead, hInk⟩ := h
  rw [isGap, List.all_eq_false]
  exact ⟨c, List.mem_append_right _ (List.mem_of_mem_head? hHead), by rw [hInk]; exact Bool.false_ne_true⟩

theorem closes_row (h : Inked content.toList) :
    closes ((Line.text depth content).row width) = (content.toList == ['\x7d']) := by
  rw [closes, content_row h]

theorem opens_row (h : ∃ c ∈ content.toList.getLast?, c ≠ '\x7b') :
    opens ((Line.text depth content).row width) = false := by
  obtain ⟨c, hLast, hBrace⟩ := h
  rw [Bool.eq_false_iff, opens, Ne, List.isSuffixOf_iff_suffix]
  rintro ⟨front, hRow⟩
  have hRowLast : ((Line.text depth content).row width).getLast? = some c := by
    rw [Line.row, List.getLast?_append, hLast, Option.some_or]
  rw [← hRow, List.getLast?_append] at hRowLast
  exact hBrace (Option.some.inj hRowLast).symm

theorem oneLine_row (h : '\n' ∉ content.toList) : '\n' ∉ (Line.text depth content).row width := by
  rw [Line.row, List.mem_append, not_or]
  exact ⟨fun hSpace => absurd (List.eq_of_mem_replicate hSpace) (by decide), h⟩

theorem trimmed_row (h : ∃ c ∈ content.toList.getLast?, isBlank c = false) :
    ∀ c ∈ ((Line.text depth content).row width).getLast?, isBlank c = false := by
  obtain ⟨d, hLast, hInk⟩ := h
  intro c hc
  rw [Line.row, List.getLast?_append, hLast, Option.some_or] at hc
  rwa [← Option.some.inj hc]

theorem Solid.inked (h : Solid content) : Inked content.toList :=
  h.head.imp fun _ hHead => ⟨hHead.1, hHead.2.1⟩

theorem shows_gap : Shows (Line.blank.row width) true false false :=
  ⟨rfl, rfl, rfl⟩

theorem inked_brace : Inked "\x7d".toList :=
  Exists.intro '\x7d' ⟨rfl, by decide⟩

theorem shows_closing : Shows ((Line.text depth "\x7d").row width) false false true :=
  ⟨isGap_row inked_brace, opens_row ⟨'\x7d', rfl, by decide⟩, closes_row inked_brace⟩

theorem ne_brace_of_head {cs : List Char} (h : ∃ c ∈ cs.head?, isBlank c = false ∧ c ≠ '\x7d') :
    (cs == ['\x7d']) = false := by
  obtain ⟨c, hHead, -, hBrace⟩ := h
  rw [beq_eq_false_iff_ne]
  rintro rfl
  exact hBrace (Option.some.inj hHead).symm

theorem Solid.shows (h : Solid content) : Shows ((Line.text depth content).row width) false false false := by
  refine ⟨isGap_row h.inked, opens_row ?_, ?_⟩
  · exact h.last.imp fun _ hLast => ⟨hLast.1, hLast.2.2⟩
  · rw [closes_row h.inked, ne_brace_of_head h.head]

theorem Solid.head_append (h : Solid content) (more : String) :
    ∃ c ∈ (content ++ more).toList.head?, isBlank c = false ∧ c ≠ '\x7d' := by
  obtain ⟨c, hHead, hc⟩ := h.head
  refine ⟨c, ?_, hc⟩
  rw [String.toList_append, List.head?_append, hHead]
  rfl

theorem Solid.inked_append (h : Solid content) (more : String) :
    Inked (content ++ more).toList :=
  (h.head_append more).imp fun _ hHead => ⟨hHead.1, hHead.2.1⟩

theorem Solid.closed (h : Solid content) : Solid (content ++ " \x7b\x7d") := by
  refine ⟨h.head_append _, ⟨'\x7d', ?_, by decide, by decide⟩, ?_⟩
  · rw [String.toList_append, List.getLast?_append]
    rfl
  · rw [String.toList_append, List.mem_append, not_or]
    exact ⟨h.oneLine, by decide⟩

theorem Solid.shows_opening (h : Solid content) :
    Shows ((Line.text depth (content ++ " \x7b")).row width) false true false := by
  refine ⟨isGap_row (h.inked_append _), ?_, ?_⟩
  · rw [opens, List.isSuffixOf_iff_suffix]
    exact ⟨List.replicate (depth * width) ' ' ++ content.toList, by simp [Line.row]⟩
  · rw [closes_row (h.inked_append _), ne_brace_of_head (h.head_append _)]

theorem startsElement_row (h : Inked content.toList) :
    startsElement ((Line.text depth content).row width) = startsElement content.toList := by
  have hBare : TextLine.content content.toList = content.toList := dropWhile_spaces h 0
  simp only [startsElement, content_row h, hBare]

end Rows

end DomainAtlas
