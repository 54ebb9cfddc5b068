import DomainAtlas.Proofs.Model.OfSource
import DomainAtlas.Proofs.Printing.Maps

/-! # Forms of relationships

A symmetric relationship may be written with a keyword between the names or with a mark at both ends of an arrow, a
directed one with an arrow that points either way. Which form is used, how the sides are named and how often a pattern
is repeated makes no difference to the model, wherever in a map the relationship stands. What is printed is always the
keyword or the arrow that points forward.
-/
set_option autoImplicit false

namespace DomainAtlas

open Text

/-! ## The forms -/

/-- What stands at one end of an arrow: a bracket with the side and its patterns, or nothing in place of a bracket
without patterns. -/
inductive RolesWritten {α : Type} (short long : Keyword) (keyword : α → Keyword) : List Token → List α → Prop
  | absent : RolesWritten short long keyword [] []
  | bracket {side : Keyword} (hSide : side = short ∨ side = long) (patterns : List α) :
      RolesWritten short long keyword
        (.symbol .leftBracket :: .keyword side ::
          (patterns.flatMap (fun pattern => [.symbol .comma, .keyword (keyword pattern)]) ++ [.symbol .rightBracket]))
        patterns

abbrev UpstreamWritten : List Token → List UpstreamPattern → Prop :=
  RolesWritten .u .upstream UpstreamPattern.keyword

abbrev DownstreamWritten : List Token → List DownstreamPattern → Prop :=
  RolesWritten .d .downstream DownstreamPattern.keyword

namespace Relationship

inductive Form
  | worded
  | marked
  | forward
  | backward

/-- The directed relationship that is declared by what stands in it, whatever the form. -/
def declared (upstream downstream : String) (upstreamPatterns : List UpstreamPattern)
    (downstreamPatterns : List DownstreamPattern) (body : List RelationshipItem) : Relationship :=
  .directed
    { upstream
      downstream
      upstreamPatterns := upstreamPatterns.eraseDups
      downstreamPatterns := downstreamPatterns.eraseDups
      exposedAggregates := body.flatMap RelationshipItem.names
      implementationTechnology := lastValue RelationshipItem.technology? body }

def markTokens (kind : SymmetricKind) : List Token :=
  [.symbol .leftBracket, .keyword kind.mark, .symbol .rightBracket]

inductive WrittenIn : Form → List Token → Relationship → Prop
  | worded (kind : SymmetricKind) (first second : String) :
      WrittenIn .worded [.name first, .keyword kind.keyword, .name second] (.symmetric kind first second)
  | marked (kind : SymmetricKind) (first second : String) :
      WrittenIn .marked
        (.name first :: (markTokens kind ++ .symbol .doubleArrow :: (markTokens kind ++ [.name second])))
        (.symmetric kind first second)
  | forward (upstream downstream : String) {roles others body : List Token} {us : List UpstreamPattern}
      {ds : List DownstreamPattern} {items : List RelationshipItem} (hUpstream : UpstreamWritten roles us)
      (hDownstream : DownstreamWritten others ds)
      (hBody : Phrase.optionalBlock Phrase.relationshipItem body items) :
      WrittenIn .forward (.name upstream :: (roles ++ .symbol .arrow :: (others ++ .name downstream :: body)))
        (declared upstream downstream us ds items)
  | backward (upstream downstream : String) {roles others body : List Token} {us : List UpstreamPattern}
      {ds : List DownstreamPattern} {items : List RelationshipItem} (hUpstream : UpstreamWritten roles us)
      (hDownstream : DownstreamWritten others ds)
      (hBody : Phrase.optionalBlock Phrase.relationshipItem body items) :
      WrittenIn .backward
        (.name downstream :: (others ++ .symbol .leftArrow :: (roles ++ .name upstream :: body)))
        (declared upstream downstream us ds items)

/-- The form that is printed. -/
def printedForm : Relationship → Form
  | symmetric .. => .worded
  | directed _ => .forward

end Relationship

/-! ## Forms and phrases -/

namespace Phrase

variable {α β : Type}

/-! ### Phrases from their first tokens -/

theorem bind_intro {phrase : Phrase α} {next : α → Phrase β} {front back : List Token} {value : α} {result : β}
    (hFront : phrase front value) (hBack : next value back result) : (phrase >>= next) (front ++ back) result :=
  ⟨front, back, value, rfl, hFront, hBack⟩

theorem name_bind {next : String → Phrase β} {text : String} {back : List Token} {result : β}
    (hBack : next text back result) : (name >>= next) (.name text :: back) result :=
  bind_intro (name_iff.mpr rfl) hBack

theorem symbol_bind {s : Symbol} {next : Unit → Phrase β} {back : List Token} {result : β}
    (hBack : next () back result) : (symbol s >>= next) (.symbol s :: back) result :=
  bind_intro (symbol_iff.mpr rfl) hBack

theorem keywordValue_bind {value? : Keyword → Option α} {k : Keyword} {value : α} {next : α → Phrase β}
    {back : List Token} {result : β} (hValue : value? k = some value) (hBack : next value back result) :
    (keywordValue value? >>= next) (.keyword k :: back) result :=
  bind_intro (keywordValue_iff.mpr ⟨k, rfl, hValue⟩) hBack

theorem pure_nil (value : α) : (pure value : Phrase α) [] value :=
  ⟨rfl, rfl⟩

theorem many_map {phrase : Phrase α} {other : Phrase β} {f : α → β}
    (hOther : ∀ tokens value, phrase tokens value → other tokens (f value)) {tokens : List Token} {values : List α}
    (h : many phrase tokens values) : many other tokens (values.map f) := by
  induction h with
  | nil => exact .nil
  | cons hFront _ ih => exact .cons (hOther _ _ hFront) ih

/-! ### Roles -/

theorem orEmpty_iff {phrase : Phrase (List α)} {tokens : List Token} {values : List α} :
    orEmpty phrase tokens values ↔ phrase tokens values ∨ tokens = [] ∧ values = [] := by
  constructor
  · intro h
    obtain ⟨values?, hOptional, rfl⟩ := map_iff.mp h
    cases hOptional with
    | none => exact .inr ⟨rfl, rfl⟩
    | some hSome => exact .inl hSome
  · rintro (hSome | ⟨rfl, rfl⟩)
    · exact map_iff.mpr ⟨some values, optional.some hSome, rfl⟩
    · exact map_iff.mpr ⟨none, optional.none, rfl⟩

section Roles

variable {ofKeyword? : Keyword → Option α} {keyword : α → Keyword} {tokens : List Token} {patterns : List α}

theorem many_pattern_iff (hKeyword : ∀ k pattern, ofKeyword? k = some pattern ↔ k = keyword pattern) :
    (many do
      symbol .comma
      keywordValue ofKeyword?) tokens patterns ↔
      tokens = patterns.flatMap fun pattern => [.symbol .comma, .keyword (keyword pattern)] := by
  constructor
  · intro h
    induction h with
    | nil => rfl
    | cons hFront _ ih =>
      obtain ⟨_, _, _, rfl, hComma, hPattern⟩ := hFront
      obtain ⟨k, rfl, hk⟩ := keywordValue_iff.mp hPattern
      rw [symbol_iff.mp hComma, ih, (hKeyword _ _).mp hk, List.flatMap_cons, List.singleton_append]
  · rintro rfl
    induction patterns with
    | nil => exact .nil
    | cons pattern patterns ih =>
      rw [List.flatMap_cons]
      have hPattern := keywordValue_iff.mpr ⟨_, rfl, (hKeyword _ pattern).mpr rfl⟩
      exact .cons (symbol_bind hPattern) ih

theorem orEmpty_roles_iff {short long : Keyword}
    (hKeyword : ∀ k pattern, ofKeyword? k = some pattern ↔ k = keyword pattern) :
    orEmpty (roles short long (keywordValue ofKeyword?)) tokens patterns ↔
      RolesWritten short long keyword tokens patterns := by
  rw [orEmpty_iff]
  constructor
  · rintro (h | ⟨rfl, rfl⟩)
    · obtain ⟨_, _, _, rfl, hOpen, _, _, _, rfl, hSide, _, _, _, rfl, hPatterns, _, _, _, rfl, hClose, rfl, rfl⟩ := h
      rw [symbol_iff.mp hOpen, symbol_iff.mp hClose, (many_pattern_iff hKeyword).mp hPatterns]
      rcases hSide with hSide | hSide
      · rw [keyword_iff.mp hSide]
        exact .bracket (.inl rfl) _
      · rw [keyword_iff.mp hSide]
        exact .bracket (.inr rfl) _
    · exact .absent
  · intro h
    cases h with
    | absent => exact .inr ⟨rfl, rfl⟩
    | bracket hSide patterns =>
      rename_i side
      have hSides : (Phrase.keyword short <|> Phrase.keyword long) [.keyword side] () :=
        hSide.imp (fun h => keyword_iff.mpr (by rw [h])) fun h => keyword_iff.mpr (by rw [h])
      exact .inl (symbol_bind (bind_intro hSides (bind_intro ((many_pattern_iff hKeyword).mpr rfl)
        (symbol_bind (pure_nil patterns)))))

end Roles

theorem orEmpty_upstreamRoles_iff {tokens : List Token} {patterns : List UpstreamPattern} :
    orEmpty upstreamRoles tokens patterns ↔ UpstreamWritten tokens patterns := by
  refine orEmpty_roles_iff fun k pattern => ⟨fun h => ?_, fun h => ?_⟩
  · cases k <;> cases h <;> rfl
  · cases pattern <;> rw [h] <;> rfl

theorem orEmpty_downstreamRoles_iff {tokens : List Token} {patterns : List DownstreamPattern} :
    orEmpty downstreamRoles tokens patterns ↔ DownstreamWritten tokens patterns := by
  refine orEmpty_roles_iff fun k pattern => ⟨fun h => ?_, fun h => ?_⟩
  · cases k <;> cases h <;> rfl
  · cases pattern <;> rw [h] <;> rfl

/-! ### Relationships -/

theorem symmetricMark_markTokens (kind : SymmetricKind) :
    symmetricMark (Relationship.markTokens kind) kind :=
  symbol_bind (keywordValue_bind (by cases kind <;> rfl) (symbol_bind (pure_nil kind)))

/-- Every form is read, and stands for the relationship. -/
theorem relationship_of_writtenIn {form : Relationship.Form} {tokens : List Token} {value : Relationship}
    (h : Relationship.WrittenIn form tokens value) :
    ∃ decl : RelationshipDecl, relationship tokens decl ∧ decl.toRelationship = value := by
  cases h with
  | worded kind first second =>
    have hKind : SymmetricKind.ofKeyword? kind.keyword = some kind := by cases kind <;> rfl
    exact ⟨.symmetric kind first second, .inl (name_bind (keywordValue_bind hKind (name_bind (pure_nil _)))), rfl⟩
  | marked kind first second =>
    have hMark := symmetricMark_markTokens kind
    have hAgain : (satisfying (· = kind) symmetricMark) (Relationship.markTokens kind) kind := ⟨hMark, rfl⟩
    refine ⟨.symmetric kind first second, .inr (.inl ?_), rfl⟩
    exact name_bind (bind_intro hMark (symbol_bind (bind_intro hAgain (name_bind (pure_nil _)))))
  | forward upstream downstream hUpstream hDownstream hBody =>
    rename_i us ds items
    refine ⟨.directed upstream downstream us ds items, .inr (.inr (.inl ?_)),
      RelationshipDecl.toRelationship_directed ..⟩
    exact name_bind (bind_intro (orEmpty_upstreamRoles_iff.mpr hUpstream) (symbol_bind (bind_intro
      (orEmpty_downstreamRoles_iff.mpr hDownstream) (name_bind (mapped hBody _)))))
  | backward upstream downstream hUpstream hDownstream hBody =>
    rename_i us ds items
    refine ⟨.directed upstream downstream us ds items, .inr (.inr (.inr ?_)),
      RelationshipDecl.toRelationship_directed ..⟩
    exact name_bind (bind_intro (orEmpty_downstreamRoles_iff.mpr hDownstream) (symbol_bind (bind_intro
      (orEmpty_upstreamRoles_iff.mpr hUpstream) (name_bind (mapped hBody _)))))

theorem writtenIn_of_wordedRelationship {tokens : List Token} {decl : RelationshipDecl}
    (h : wordedRelationship tokens decl) : Relationship.WrittenIn .worded tokens decl.toRelationship := by
  obtain ⟨_, _, first, rfl, hFirst, _, _, kind, rfl, hKind, _, _, second, rfl, hSecond, rfl, rfl⟩ := h
  obtain ⟨k, rfl, hk⟩ := keywordValue_iff.mp hKind
  have hKeyword : k = kind.keyword := by
    cases k <;> cases hk <;> rfl
  rw [name_iff.mp hFirst, name_iff.mp hSecond, hKeyword]
  exact .worded kind first second

theorem writtenIn_of_forwardRelationship {tokens : List Token} {decl : RelationshipDecl}
    (h : forwardRelationship tokens decl) : Relationship.WrittenIn .forward tokens decl.toRelationship := by
  obtain ⟨_, _, upstream, rfl, hName, roles, _, us, rfl, hUpstream, _, _, _, rfl, hArrow, others, _, ds, rfl,
    hDownstream, _, _, downstream, rfl, hOther, body, _, items, rfl, hBody, rfl, rfl⟩ := h
  rw [name_iff.mp hName, symbol_iff.mp hArrow, name_iff.mp hOther, List.append_nil,
    RelationshipDecl.toRelationship_directed]
  exact .forward upstream downstream (orEmpty_upstreamRoles_iff.mp hUpstream)
    (orEmpty_downstreamRoles_iff.mp hDownstream) hBody

end Phrase

/-! ## A place in a map -/

/-- A document with a place in its context map that is left free for a relationship. -/
structure MapFrame where
  before : List ContextDecl
  name : Option String
  front : List MapItem
  back : List MapItem
  after : List ContextDecl

namespace MapFrame

/-- The tokens on both sides of the place. -/
inductive Around (frame : MapFrame) : List Token → List Token → Prop
  | intro {before header front back after : List Token} (hBefore : Phrase.many Phrase.contextDecl before frame.before)
      (hHeader : Phrase.mapHeader header frame.name) (hFront : Phrase.many Phrase.mapItem front frame.front)
      (hBack : Phrase.many Phrase.mapItem back frame.back)
      (hAfter : Phrase.many Phrase.contextDecl after frame.after) :
      Around frame (before ++ (header ++ .symbol .leftBrace :: front)) (back ++ .symbol .rightBrace :: after)

def declarations (frame : MapFrame) (decl : RelationshipDecl) : List Declaration :=
  frame.before.map .boundedContext ++
    .contextMap { name := frame.name, items := frame.front ++ .relationship decl :: frame.back } ::
      frame.after.map .boundedContext

/-- The model of the document with the relationship at the place. -/
def fill (frame : MapFrame) (relationship : Relationship) : Model where
  contextMap := some
    { name := frame.name
      mapType := lastValue MapItem.type? (frame.front ++ frame.back)
      state := (lastValue MapItem.state? (frame.front ++ frame.back)).getD .asIs
      contains := (frame.front ++ frame.back).flatMap MapItem.names
      relationships :=
        (frame.front.filterMap MapItem.relationship?).map RelationshipDecl.toRelationship ++
          relationship :: (frame.back.filterMap MapItem.relationship?).map RelationshipDecl.toRelationship }
  boundedContexts := (frame.before ++ frame.after).map ContextDecl.toContext

variable {frame : MapFrame} {left right tokens : List Token} {decl : RelationshipDecl} {relationship : Relationship}

theorem ofDeclarations_declarations (frame : MapFrame) (decl : RelationshipDecl) :
    Model.ofDeclarations (frame.declarations decl) = frame.fill decl.toRelationship := by
  rw [Model.ofDeclarations_eq, declarations, fill]
  simp [lastValue_append, lastValue_cons, lastValue_map, lastValue_none, Declaration.map?, Declaration.context?,
    MapDecl.toMap_eq, List.filterMap_cons, Function.comp_def, MapItem.type?, MapItem.state?, MapItem.names,
    MapItem.relationship?]

theorem length_maps_declarations (frame : MapFrame) (decl : RelationshipDecl) :
    ((frame.declarations decl).filterMap Declaration.map?).length ≤ 1 := by
  simp [declarations, Declaration.map?, Function.comp_def]

theorem Around.document (h : frame.Around left right) (hItem : Phrase.relationship tokens decl) :
    Phrase.document (left ++ tokens ++ right) (frame.declarations decl) := by
  obtain ⟨hBefore, hHeader, hFront, hBack, hAfter⟩ := h
  rename_i before header front back after
  have hItems : Phrase.many Phrase.mapItem (front ++ (tokens ++ back))
      (frame.front ++ .relationship decl :: frame.back) :=
    Phrase.many_append hFront (.cons (.inr (.inr (.inr (Phrase.mapped hItem MapItem.relationship)))) hBack)
  have hBlock : Phrase.block Phrase.mapItem
      (.symbol .leftBrace :: (front ++ (tokens ++ back) ++ [.symbol .rightBrace])) _ :=
    Phrase.symbol_bind (Phrase.bind_intro hItems (Phrase.symbol_bind (Phrase.pure_nil _)))
  have hMap : Phrase.declaration
      (header ++ .symbol .leftBrace :: (front ++ (tokens ++ back) ++ [.symbol .rightBrace])) _ :=
    .inl (Phrase.mapped (Phrase.mapDecl_eq ▸ Phrase.bind_intro hHeader (Phrase.mapped hBlock _)) Declaration.contextMap)
  have hContexts {tokens : List Token} {decls : List ContextDecl} (h : Phrase.many Phrase.contextDecl tokens decls) :
      Phrase.many Phrase.declaration tokens (decls.map .boundedContext) :=
    Phrase.many_map (fun _ _ hContext => .inr (Phrase.mapped hContext Declaration.boundedContext)) h
  have hDocument := Phrase.many_append (hContexts hBefore) (.cons hMap (hContexts hAfter))
  simpa [Phrase.document, declarations] using hDocument

end MapFrame

/-! ## Texts of tokens -/

/-- The source is scanned without fault, and these are its tokens. -/
def HasTokens (source : String) (tokens : List Token) : Prop :=
  ∃ lexemes, lexemesOf source = .ok lexemes ∧ (tokensOf lexemes).map (·.value) = tokens

theorem Spells.hasTokens {follow : List Char → Prop} {text : String} {tokens : List Token}
    (h : Spells follow text tokens) (hFollow : follow []) : HasTokens text tokens := by
  have hScans := h [] [] hFollow .nil
  rw [List.append_nil, List.append_nil] at hScans
  exact lexemesOf_iff_scans.mpr hScans

/-- A token on its own; names are escaped where they would be keywords. -/
def writtenToken : Token → String
  | .keyword k => k.text
  | .name text => writtenName text
  | .string value => Quoted.quote value
  | .symbol s => s.text

def spacedText (tokens : List Token) : String :=
  String.join (tokens.map fun t => writtenToken t ++ " ")

theorem spells_writtenToken {t : Token} (h : ∀ n, t = .name n → isWord n = true) :
    Spells anyText (writtenToken t ++ " ") [t] := by
  have hWord (rest : List Char) : EndsWord (" ".toList ++ rest) := Phrase.endsWord_cons (by decide) rest
  cases t with
  | keyword k => exact (spells_keyword k).append spells_space fun rest _ => hWord rest
  | name n =>
    obtain ⟨tokens, hName, hSpells⟩ := Phrase.spelt_name (h n rfl)
    rw [Phrase.name_iff.mp hName] at hSpells
    exact hSpells.append spells_space fun rest _ => hWord rest
  | string value => exact (spells_quote value).append spells_space fun _ _ => trivial
  | symbol s =>
    have hEnds (rest : List Char) : s.Ends (" ".toList ++ rest) := by
      cases s <;> simp [Symbol.Ends]
    exact (spells_symbol s).append spells_space fun rest _ => hEnds rest

theorem spells_spacedText {tokens : List Token} (h : WordNames tokens) : Spells anyText (spacedText tokens) tokens := by
  induction tokens with
  | nil => exact spells_empty anyText
  | cons t tokens ih =>
    have hFirst : Spells anyText (writtenToken t ++ " ") [t] :=
      spells_writtenToken fun n hn => h n (List.mem_cons.mpr (.inl hn.symm))
    rw [spacedText, List.map_cons, String.join_cons]
    exact hFirst.append (ih fun n hn => h n (List.mem_cons_of_mem t hn)) fun _ _ => trivial

/-! ## Forms as printed -/

open Phrase in
theorem exists_writtenIn_printedForm {relationship : Relationship} (h : relationship.WellNamed) (width depth : Nat) :
    ∃ tokens, relationship.distinctPatterns.WrittenIn relationship.printedForm tokens ∧
      Spells anyText (linesText width ((Printer.relationshipLayout relationship).lines depth)) tokens := by
  cases relationship with
  | symmetric kind first second =>
    obtain ⟨tokens, hPhrase, hSpells⟩ := laid_line (spelt_symmetric kind h.1 h.2) width depth
    exact ⟨tokens, writtenIn_of_wordedRelationship hPhrase, hSpells⟩
  | directed relationship =>
    obtain ⟨decl, hDecl, hLaid⟩ := laid_forwardRelationship h
    obtain ⟨tokens, hPhrase, hSpells⟩ := hLaid width depth
    have hWritten := writtenIn_of_forwardRelationship hPhrase
    rw [hDecl] at hWritten
    exact ⟨tokens, hWritten, hSpells⟩

theorem lines_infix_childLines {children : List Layout} {child : Layout} (h : child ∈ children) (depth : Nat)
    (first : Bool) : child.lines depth <:+: Layout.childLines depth first children := by
  induction children generalizing first with
  | nil => cases h
  | cons other children ih =>
    rw [Layout.childLines]
    rcases List.mem_cons.mp h with rfl | hMem
    · exact List.infix_append ..
    · exact (ih hMem false).trans (List.suffix_append ..).isInfix

theorem childLines_infix_block (header : String) (properties : List String) (children : List Layout) (depth : Nat) :
    Layout.childLines (depth + 1) properties.isEmpty children <:+:
      (Layout.block header properties children).lines depth := by
  rw [Layout.lines]
  exact (List.infix_append ..).trans (List.suffix_cons ..).isInfix

/-- Each relationship of a map is printed by itself, one level deep. -/
theorem infix_print {model : Model} {map : ContextMap} {relationship : Relationship}
    (hMap : model.contextMap = some map) (h : relationship ∈ map.relationships) (width : Nat) :
    (linesText width ((Printer.relationshipLayout relationship).lines 1)).toList <:+: (model.print width).toList := by
  have hLayout : Printer.mapLayout map ∈ model.layout := by
    rw [Model.layout, hMap]
    exact List.mem_append_left _ List.mem_cons_self
  have hChild := List.mem_map_of_mem (f := Printer.relationshipLayout) h
  have hInside : (Printer.relationshipLayout relationship).lines 1 <:+: (Printer.mapLayout map).lines 0 :=
    (lines_infix_childLines hChild 1 _).trans (childLines_infix_block _ _ _ 0)
  obtain ⟨front, back, hLines⟩ := hInside.trans (lines_infix_childLines hLayout 0 true)
  rw [Model.print, Layout.render, ← linesText, ← hLines, linesText_append, linesText_append, String.toList_append,
    String.toList_append]
  exact List.infix_append ..

/-! ## The forms agree -/

/-- At a place in a map, every form of a relationship gives the model with the relationship at this place: in every
source with these tokens, of which there is one if the names are words. The model is printed with the relationship in
its printed form. -/
theorem ofSource_of_writtenIn {frame : MapFrame} {left right tokens : List Token} {form : Relationship.Form}
    {relationship : Relationship} (hAround : frame.Around left right) (hWritten : relationship.WrittenIn form tokens) :
    (∀ source, HasTokens source (left ++ tokens ++ right) → Model.ofSource source = .ok (frame.fill relationship)) ∧
      (WordNames (left ++ tokens ++ right) →
        HasTokens (spacedText (left ++ tokens ++ right)) (left ++ tokens ++ right) ∧
          ∀ width, ∃ printed, relationship.WrittenIn relationship.printedForm printed ∧
            HasTokens (linesText width ((Printer.relationshipLayout relationship).lines 1)) printed ∧
            (linesText width ((Printer.relationshipLayout relationship).lines 1)).toList <:+:
              ((frame.fill relationship).print width).toList) := by
  obtain ⟨decl, hPhrase, rfl⟩ := Phrase.relationship_of_writtenIn hWritten
  refine ⟨fun source hSource => ?_, fun hNames => ⟨(spells_spacedText hNames).hasTokens trivial, fun width => ?_⟩⟩
  · exact ofSource_iff.mpr ⟨_, _, lexemesOf_iff_scans.mp hSource, hAround.document hPhrase,
      frame.length_maps_declarations decl, frame.ofDeclarations_declarations decl⟩
  · have hFormed := Phrase.yields_relationship tokens decl (wordNames_append (wordNames_append hNames).1).2 hPhrase
    obtain ⟨hNamed, hDistinct⟩ := Relationship.wellFormed_iff.mp hFormed
    have hMap : (frame.fill decl.toRelationship).contextMap = some _ := rfl
    obtain ⟨printed, hPrinted, hSpells⟩ := exists_writtenIn_printedForm hNamed width 1
    rw [Relationship.distinctPatterns_eq_self_iff.mpr hDistinct] at hPrinted
    exact ⟨printed, hPrinted, hSpells.hasTokens trivial,
      infix_print hMap (List.mem_append_right _ List.mem_cons_self) width⟩

/-- A map with nothing but one relationship, with the arrow either way. -/
theorem ofSource_salesToType :
    Model.ofSource "ContextMap \x7b Sales [ U , OHS ] -> ^type \x7d " =
        .ok { contextMap := some { relationships := [.declared "Sales" "type" [.openHostService] [] []] } } ∧
      Model.ofSource "ContextMap \x7b ^type [ D ] <- [ Upstream , OHS , OHS ] Sales \x7d " =
        .ok { contextMap := some { relationships := [.declared "Sales" "type" [.openHostService] [] []] } } := by
  have hHeader : Phrase.mapHeader [.keyword .contextMap] none :=
    ⟨[.keyword .contextMap], [], (), rfl, Phrase.keyword_iff.mpr rfl, .none⟩
  have hAround := @MapFrame.Around.intro ⟨[], none, [], [], []⟩ [] [.keyword .contextMap] [] [] [] .nil hHeader .nil
    .nil .nil
  have hBody : Phrase.optionalBlock Phrase.relationshipItem [] [] := Phrase.orEmpty_iff.mpr (.inr ⟨rfl, rfl⟩)
  have hForward := ofSource_of_writtenIn hAround (.forward "Sales" "type" (.bracket (.inl rfl) [.openHostService])
    .absent hBody)
  have hBackward := ofSource_of_writtenIn hAround (.backward "Sales" "type"
    (.bracket (.inr rfl) [.openHostService, .openHostService]) (.bracket (.inl rfl) []) hBody)
  constructor
  · exact hForward.1 _ (hForward.2 (by simp [WordNames]; decide)).1
  · exact hBackward.1 _ (hBackward.2 (by simp [WordNames]; decide)).1

end DomainAtlas
