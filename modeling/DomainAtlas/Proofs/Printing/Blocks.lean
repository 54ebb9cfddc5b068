import DomainAtlas.Proofs.Printing.Members
import Mathlib.Data.List.Forall2

/-! # Blocks as written

A layout is read as the element that it is made for at any depth and any width: neither the indentation nor
the blank lines between elements make tokens.
-/
set_option autoImplicit false

namespace DomainAtlas

open Text Printer

variable {α β γ δ : Type}

def linesText (width : Nat) (lines : List Line) : String :=
  String.join (lines.map (Line.render width))

@[simp] theorem linesText_nil (width : Nat) : linesText width [] = "" := rfl

@[simp] theorem linesText_cons (width : Nat) (line : Line) (lines : List Line) :
    linesText width (line :: lines) = line.render width ++ linesText width lines := by
  rw [linesText, List.map_cons, String.join_cons, linesText]

@[simp] theorem linesText_append (width : Nat) (lines others : List Line) :
    linesText width (lines ++ others) = linesText width lines ++ linesText width others := by
  rw [linesText, List.map_append, String.join_append, linesText, linesText]

/-- Elements found one by one, with one text or layout each. -/
theorem exists_forall₂_map {Reading : γ → α → Prop} {f : α → β} {meant : δ → β} {written : δ → γ} {values : List δ}
    (h : ∀ value ∈ values, ∃ decl, f decl = meant value ∧ Reading (written value) decl) :
    ∃ decls, decls.map f = values.map meant ∧ List.Forall₂ Reading (values.map written) decls := by
  induction values with
  | nil => exact ⟨[], rfl, .nil⟩
  | cons value values ih =>
    obtain ⟨decl, hDecl, hFirst⟩ := h value List.mem_cons_self
    obtain ⟨decls, hDecls, hOthers⟩ := ih fun other hOther => h other (List.mem_cons_of_mem _ hOther)
    exact ⟨decl :: decls, by rw [List.map_cons, List.map_cons, hDecl, hDecls], .cons hFirst hOthers⟩

namespace Phrase

def Laid (phrase : Phrase α) (layout : Layout) (value : α) : Prop :=
  ∀ width depth, phrase.Spelt anyText (linesText width (layout.lines depth)) value

/-- Property lines, each read as an item. -/
def Listed (item : Phrase α) (properties : List String) (values : List α) : Prop :=
  List.Forall₂ (item.Spelt EndsWord) properties values

/-- Child elements, each read as an item. -/
def Nested (item : Phrase α) (children : List Layout) (values : List α) : Prop :=
  List.Forall₂ item.Laid children values

/-! ## Lines -/

theorem Spelt.beforeNewline {phrase : Phrase α} {text : String} {value : α}
    (h : phrase.Spelt EndsWord text value) : phrase.Spelt anyText (text ++ "\n") value := by
  obtain ⟨tokens, hPhrase, hSpells⟩ := h
  refine ⟨tokens, hPhrase, ?_⟩
  rw [← List.append_nil tokens]
  exact hSpells.append spells_newline fun rest _ => endsWord_cons (by decide) rest

theorem Spelt.afterSpaces {phrase : Phrase α} {follow : List Char → Prop} {text : String} {value : α}
    (h : phrase.Spelt follow text value) (count : Nat) :
    phrase.Spelt follow (String.ofList (List.replicate count ' ') ++ text) value := by
  obtain ⟨tokens, hPhrase, hSpells⟩ := h
  exact ⟨tokens, hPhrase, (spells_spaces count).append hSpells fun _ _ => trivial⟩

theorem Spelt.line {phrase : Phrase α} {text : String} {value : α} (h : phrase.Spelt EndsWord text value)
    (width depth : Nat) : phrase.Spelt anyText ((Line.text depth text).render width) value := by
  rw [Line.render, String.append_assoc]
  exact h.beforeNewline.afterSpaces (depth * width)

theorem laid_line {phrase : Phrase α} {text : String} {value : α} (h : phrase.Spelt EndsWord text value) :
    phrase.Laid (.line text) value := by
  intro width depth
  rw [Layout.lines, linesText_cons, linesText_nil, String.append_empty]
  exact h.line width depth

theorem Listed.spelt {item : Phrase α} {properties : List String} {values : List α}
    (h : item.Listed properties values) (width depth : Nat) :
    (many item).Spelt anyText (linesText width (properties.map (Line.text depth))) values := by
  induction h with
  | nil => exact spelt_many_nil item anyText
  | cons hLine _ ih =>
    rw [List.map_cons, linesText_cons]
    exact (hLine.line width depth).manyCons ih

theorem Nested.spelt {item : Phrase α} {children : List Layout} {values : List α}
    (h : item.Nested children values) (width depth : Nat) (first : Bool) :
    (many item).Spelt anyText (linesText width (Layout.childLines depth first children)) values := by
  induction h generalizing first with
  | nil =>
    rw [Layout.childLines]
    exact spelt_many_nil item anyText
  | cons hChild _ ih =>
    have hBoth := (hChild width depth).manyCons (ih false)
    rw [Layout.childLines, linesText_append, linesText_append, String.append_assoc]
    cases first with
    | true => simpa using hBoth
    | false =>
      obtain ⟨tokens, hMany, hSpells⟩ := hBoth
      rw [if_neg Bool.false_ne_true, linesText_cons, linesText_nil, String.append_empty, Line.render]
      exact ⟨tokens, hMany, spells_newline.append hSpells fun _ _ => trivial⟩

/-! ## Blocks -/

theorem spelt_leftBrace : (symbol .leftBrace).Spelt anyText "\x7b" () :=
  spelt_symbol (s := .leftBrace) fun _ => trivial

theorem spelt_rightBrace : (symbol .rightBrace).Spelt anyText "\x7d" () :=
  spelt_symbol (s := .rightBrace) fun _ => trivial

theorem spelt_close {values : List α} {follow : List Char → Prop} :
    (do symbol .rightBrace; return values : Phrase (List α)).Spelt follow "\x7d" values :=
  @Spelt.bind _ _ (symbol .rightBrace) (fun _ => pure values) _ _ "" _ _ spelt_rightBrace (spelt_pure values follow)

theorem spelt_block {item : Phrase α} {body : String} {values : List α}
    (h : (many item).Spelt anyText body values) (count : Nat) :
    (block item).Spelt anyText
      ("\x7b" ++ "\n" ++ (body ++ (String.ofList (List.replicate count ' ') ++ ("\x7d" ++ "\n")))) values := by
  have hOpen := (spelt_leftBrace.closed EndsWord).beforeNewline
  exact hOpen.bind (h.bind (spelt_close.beforeNewline.afterSpaces count))

theorem spelt_block_nil (item : Phrase α) (follow : List Char → Prop) :
    (block item).Spelt follow ("\x7b" ++ ("" ++ "\x7d")) [] :=
  spelt_leftBrace.bind ((spelt_many_nil item anyText).bind spelt_close)

theorem linesText_block (width depth : Nat) (header : String) (properties : List String) (children : List Layout) :
    linesText width ((Layout.block header properties children).lines depth) =
      String.ofList (List.replicate (depth * width) ' ') ++ (header ++ " " ++ ("\x7b" ++ "\n"
        ++ (linesText width (properties.map (Line.text (depth + 1)))
          ++ linesText width (Layout.childLines (depth + 1) properties.isEmpty children)
          ++ (String.ofList (List.replicate (depth * width) ' ') ++ ("\x7d" ++ "\n"))))) := by
  have hOpen : header ++ " \x7b" = header ++ (" " ++ "\x7b") := rfl
  simp only [Layout.lines, linesText_cons, linesText_append, linesText_nil, Line.render, hOpen,
    String.append_assoc, String.append_empty]

section Elements

variable (build : γ → List α → β) {head : Phrase γ} {item : Phrase α} {header : String} {title : γ}
  {properties : List String} {children : List Layout} {values others : List α}

theorem laid_braces {body : Phrase (List α)}
    (hBody : ∀ tokens values, block item tokens values → body tokens values)
    (hHead : head.Spelt EndsWord header title) (hListed : item.Listed properties values)
    (hNested : item.Nested children others) :
    (head >>= fun title => build title <$> body).Laid (.block header properties children)
      (build title (values ++ others)) := by
  intro width depth
  have hItems := (hListed.spelt width (depth + 1)).manyAppend (hNested.spelt width (depth + 1) properties.isEmpty)
  have hBlock := (spelt_block hItems (depth * width)).imp fun tokens => hBody tokens _
  rw [linesText_block]
  exact (hHead.bindSpace (hBlock.map (build title))).afterSpaces (depth * width)

theorem laid_block (hHead : head.Spelt EndsWord header title) (hListed : item.Listed properties values)
    (hNested : item.Nested children others) :
    (head >>= fun title => build title <$> block item).Laid (.block header properties children)
      (build title (values ++ others)) :=
  laid_braces build (fun _ _ => id) hHead hListed hNested

theorem laid_memberBlock (hHead : head.Spelt EndsWord header title) (hListed : item.Listed properties values) :
    (head >>= fun title => build title <$> optionalBlock item).Laid (memberBlock header properties)
      (build title values) := by
  cases hListed with
  | nil =>
    have hNone := (spelt_orEmpty_nil (block item) EndsWord).map (build title)
    have hBare : (head >>= fun title => build title <$> optionalBlock item).Spelt EndsWord (header ++ "") _ :=
      hHead.bindTrailing hNone trails_empty
    rw [String.append_empty] at hBare
    exact laid_line hBare
  | cons hLine hLines =>
    have hBlock : ∀ tokens values, block item tokens values → optionalBlock item tokens values :=
      fun tokens values h => ⟨tokens, [], some values, by simp, optional.some h, rfl, rfl⟩
    have hLaid := laid_braces build hBlock hHead (.cons hLine hLines) (.nil : item.Nested [] [])
    rw [List.append_nil] at hLaid
    exact hLaid

theorem laid_closedBlock (hHead : head.Spelt EndsWord header title) (hListed : item.Listed properties values)
    (hNested : item.Nested children others) :
    (head >>= fun title => build title <$> block item).Laid (closedBlock header properties children)
      (build title (values ++ others)) := by
  by_cases hEmpty : properties = [] ∧ children = []
  · obtain ⟨rfl, rfl⟩ := hEmpty
    cases hListed
    cases hNested
    have hBlock := (spelt_block_nil item EndsWord).map (build title)
    have hLine : (head >>= fun title => build title <$> block item).Spelt EndsWord _ _ := hHead.bindSpace hBlock
    rw [String.append_assoc] at hLine
    exact laid_line hLine
  · have hBlock : closedBlock header properties children = .block header properties children := by
      rw [closedBlock, if_neg (by simpa using hEmpty)]
    rw [hBlock]
    exact laid_block build hHead hListed hNested

end Elements

end Phrase

end DomainAtlas
