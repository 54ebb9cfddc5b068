import DomainAtlas.Proofs.Printing.Pen

/-! # Contents of lines

The lines of a well-named model are solid, whatever its free texts hold. The first two words of a property are never
taken for those of an element: names that are keywords have a caret in front.
-/
set_option autoImplicit false

namespace DomainAtlas

open Text Printer TextLine

/-! ## Solid contents -/

section Solid

variable {first last middle name type : String}

theorem Solid.around (hFirst : Solid first) (hMiddle : '\n' ∉ middle.toList) (hLast : Solid last) :
    Solid (first ++ middle ++ last) := by
  obtain ⟨c, hTail, hc⟩ := hLast.last
  refine ⟨?_, ⟨c, ?_, hc⟩, ?_⟩
  · rw [String.append_assoc]
    exact hFirst.head_append _
  · rw [String.toList_append, List.getLast?_append, hTail]
    rfl
  · simp only [String.toList_append, List.mem_append, not_or]
    exact ⟨⟨hFirst.oneLine, hMiddle⟩, hLast.oneLine⟩

theorem Solid.append (hFirst : Solid first) (hLast : Solid last) : Solid (first ++ last) := by
  have hBoth : Solid (first ++ "" ++ last) := hFirst.around (by decide) hLast
  rwa [String.append_empty] at hBoth

theorem Solid.spaced (hFirst : Solid first) (hLast : Solid last) : Solid (first ++ " " ++ last) :=
  hFirst.around (by decide) hLast

theorem Solid.flag (h : Solid first) (hLast : Solid last) (flag : Bool) :
    Solid (first ++ Phrase.flagText last flag) := by
  cases flag with
  | false => rwa [Phrase.flagText, if_neg Bool.false_ne_true, String.append_empty]
  | true =>
    rw [Phrase.flagText, if_pos rfl, ← String.append_assoc]
    exact h.spaced hLast

theorem solid_word (h : isWord name = true) : Solid name := by
  obtain ⟨c, cs, hList, -⟩ := isWordChars_iff.mp h
  have hChars : name.toList ≠ [] := hList ▸ List.cons_ne_nil c cs
  have hChar (d : Char) (hd : d ∈ name.toList) : isBlank d = false ∧ d ≠ '\x7d' ∧ d ≠ '\x7b' ∧ d ≠ '\n' := by
    have hWord := isWordChar_of_mem_word h hd
    exact ⟨isBlank_of_isWordChar hWord, ne_of_isWordChar hWord (by decide), ne_of_isWordChar hWord (by decide),
      ne_of_isWordChar hWord (by decide)⟩
  obtain ⟨hInk, hBrace, -⟩ := hChar _ (List.head_mem hChars)
  obtain ⟨hLastInk, -, hLastBrace, -⟩ := hChar _ (List.getLast_mem hChars)
  exact ⟨⟨_, List.head_mem_head? hChars, hInk, hBrace⟩, ⟨_, List.getLast_mem_getLast? hChars, hLastInk, hLastBrace⟩,
    fun hLine => (hChar _ hLine).2.2.2 rfl⟩

theorem solid_escaped (h : isWord name = true) (escaped : Bool) :
    Solid (if escaped then "^" ++ name else name) := by
  have hCaret : Solid "^" := ⟨⟨'^', rfl, by decide⟩, ⟨'^', rfl, by decide⟩, by decide⟩
  cases escaped with
  | false => exact solid_word h
  | true => exact hCaret.append (solid_word h)

theorem solid_writtenName (h : isWord name = true) : Solid (writtenName name) :=
  solid_escaped h (isKeyword name)

theorem solid_writtenMemberName (h : isWord name = true) : Solid (writtenMemberName name) :=
  solid_escaped h (isReservedWord name)

theorem solid_quote (text : String) : Solid (Quoted.quote text) := by
  have hChars : (Quoted.quote text).toList = '"' :: (Quoted.body text.toList ++ ['"']) := by
    simpa using toList_quote_append text []
  refine ⟨⟨'"', by rw [hChars]; rfl, by decide⟩, ⟨'"', ?_, by decide⟩, fun hLine => ?_⟩
  · rw [hChars, ← List.cons_append, List.getLast?_concat]
    rfl
  · exact (Quoted.not_break_of_mem_quote hLine).1 rfl

theorem solid_writtenType (h : IsCanonicalType type) : Solid (writtenType type) := by
  obtain ⟨n, hWord, hNamed | hReference | ⟨kind, hCollection⟩⟩ := writtenType_cases_of_canonical h
  · rw [hNamed]
    exact solid_writtenName hWord
  · have hDash : Solid "-" := ⟨⟨'-', rfl, by decide⟩, ⟨'-', rfl, by decide⟩, by decide⟩
    rw [hReference]
    exact hDash.spaced (solid_writtenName hWord)
  · have hClose : Solid ">" := ⟨⟨'>', rfl, by decide⟩, ⟨'>', rfl, by decide⟩, by decide⟩
    rw [hCollection]
    exact ((solid_word (isWord_text _)).around (by decide) (solid_writtenName hWord)).append hClose

theorem oneLine_intercalate {separator : String} {texts : List String} (hSeparator : '\n' ∉ separator.toList)
    (h : ∀ text ∈ texts, '\n' ∉ text.toList) : '\n' ∉ (separator.intercalate texts).toList := by
  match texts with
  | [] => exact List.not_mem_nil
  | [text] => exact h text (List.mem_singleton_self text)
  | text :: next :: texts =>
    obtain ⟨hText, hTexts⟩ := List.forall_mem_cons.mp h
    simp only [String.intercalate_cons_cons, String.toList_append, List.mem_append, not_or]
    exact ⟨⟨hText, hSeparator⟩, oneLine_intercalate hSeparator hTexts⟩

theorem solid_intercalate {texts : List String} (hSome : texts ≠ []) (h : ∀ text ∈ texts, Solid text) :
    Solid (", ".intercalate texts) := by
  match texts with
  | [text] => exact h text (List.mem_singleton_self text)
  | text :: next :: texts =>
    obtain ⟨hText, hTexts⟩ := List.forall_mem_cons.mp h
    rw [String.intercalate_cons_cons]
    exact hText.around (by decide) (solid_intercalate (List.cons_ne_nil next texts) hTexts)

end Solid

/-! ## Properties -/

/-- No keyword of an element or of a relation stands in front, and no bracket. -/
structure Plain (cs : List Char) : Prop where
  bracket : cs.head? ≠ some '['
  keyword : ∀ keyword ∈ elementKeywords ++ relationKeywords, ∀ more, EndsWord more → cs ≠ keyword.text.toList ++ more

theorem plain_of_word {word : String} {more : List Char} (hWord : isWord word = true)
    (hNot : ∀ keyword ∈ elementKeywords ++ relationKeywords, word ≠ keyword.text) (hMore : EndsWord more) :
    Plain (word.toList ++ more) where
  bracket := by
    obtain ⟨c, cs, hList, hStart, -⟩ := isWordChars_iff.mp hWord
    rw [hList]
    rintro ⟨⟩
    cases hStart
  keyword := by
    intro keyword hKeyword others hOthers hEq
    have hChars (name : String) (h : isWord name = true) : ∀ c ∈ name.toList, isWordChar c = true :=
      fun c hc => isWordChar_of_mem_word h hc
    have hTake := congrArg (List.takeWhile isWordChar) hEq
    rw [takeWhile_word (hChars _ hWord) hMore, takeWhile_word (hChars _ (isWord_text keyword)) hOthers] at hTake
    exact hNot keyword hKeyword (String.toList_inj.mp hTake)

theorem plain_of_head {c : Char} {cs : List Char} (hWord : isWordChar c = false) (hBracket : c ≠ '[') :
    Plain (c :: cs) where
  bracket := fun hHead => hBracket (Option.some.inj hHead)
  keyword := by
    intro keyword _ more _ hEq
    obtain ⟨d, ds, hList, hStart, -⟩ := isWordChars_iff.mp (isWord_text keyword)
    rw [hList, List.cons_append] at hEq
    obtain ⟨rfl, -⟩ := List.cons.inj hEq
    rw [isWordChar_of_isWordStart hStart] at hWord
    cases hWord

theorem plain_keyword {keyword : Keyword} {more : List Char} (hNot : keyword ∉ elementKeywords ++ relationKeywords)
    (hMore : EndsWord more) : Plain (keyword.text.toList ++ more) := by
  refine plain_of_word (isWord_text keyword) (fun other hOther hText => ?_) hMore
  have hWord := congrArg Keyword.ofWord? hText
  rw [ofWord?_text, ofWord?_text] at hWord
  exact hNot (Option.some.inj hWord ▸ hOther)

theorem plain_name {name : String} {more : List Char} (hWord : isWord name = true) (hNot : isKeyword name = false)
    (hMore : EndsWord more) : Plain (name.toList ++ more) := by
  refine plain_of_word hWord (fun keyword _ hText => ?_) hMore
  rw [hText, isKeyword, ofWord?_text] at hNot
  cases hNot

theorem plain_escaped {name : String} {escaped : Bool} {more : List Char} (hWord : isWord name = true)
    (hNot : escaped = false → isKeyword name = false) (hMore : EndsWord more) :
    Plain ((if escaped then "^" ++ name else name).toList ++ more) := by
  cases escaped with
  | true =>
    rw [if_pos rfl, String.toList_append]
    exact plain_of_head (c := '^') (by decide) (by decide)
  | false => exact plain_name hWord (hNot rfl) hMore

theorem plain_writtenName {name : String} {more : List Char} (hWord : isWord name = true) (hMore : EndsWord more) :
    Plain ((writtenName name).toList ++ more) :=
  plain_escaped hWord id hMore

theorem plain_writtenMemberName {name : String} {more : List Char} (hWord : isWord name = true)
    (hMore : EndsWord more) : Plain ((writtenMemberName name).toList ++ more) :=
  plain_escaped hWord isKeyword_of_not_isReservedWord hMore

theorem plain_writtenType {type : String} {more : List Char} (h : IsCanonicalType type) (hMore : EndsWord more) :
    Plain ((writtenType type).toList ++ more) := by
  obtain ⟨n, hWord, hNamed | hReference | ⟨kind, hCollection⟩⟩ := writtenType_cases_of_canonical h
  · rw [hNamed]
    exact plain_writtenName hWord hMore
  · rw [hReference, String.toList_append]
    exact plain_of_head (c := '-') (by decide) (by decide)
  · rw [hCollection, String.append_assoc, String.append_assoc, String.toList_append, List.append_assoc]
    refine plain_keyword ?_ ?_
    · cases kind <;> decide
    · exact (Phrase.endsBefore_lessThan.append _).endsWord _

theorem endsWord_of_space {more : List Char} (h : ∀ c ∈ more.head?, c = ' ') : EndsWord more := by
  intro c hc
  rw [h c hc]
  decide

/-- The first of the words between spaces, and what stands behind it. -/
theorem splitOn_space (cs : List Char) :
    ∃ word words more, cs.splitOn ' ' = word :: words ∧ cs = word ++ more ∧ ∀ c ∈ more.head?, c = ' ' := by
  by_cases hSpace : ' ' ∈ cs
  · obtain ⟨word, more, rfl, hWord⟩ := List.eq_append_cons_of_mem hSpace
    refine ⟨word, _, ' ' :: more, List.splitOn_append_cons_self_of_not_mem hWord more, rfl, ?_⟩
    exact fun c hc => (Option.some.inj hc).symm
  · refine ⟨cs, [], [], List.splitOn_eq_singleton hSpace, (List.append_nil cs).symm, ?_⟩
    exact fun c hc => absurd hc (Option.not_mem_none c)

theorem Plain.not_isWordOf {keywords : List Keyword} {word more : List Char} (h : Plain (word ++ more))
    (hKeywords : ∀ keyword ∈ keywords, keyword ∈ elementKeywords ++ relationKeywords) (hMore : EndsWord more) :
    isWordOf keywords word = false := by
  rw [isWordOf, List.any_eq_false]
  intro keyword hKeyword hText
  rw [← beq_iff_eq.mp hText] at h
  exact h.keyword keyword (hKeywords keyword hKeyword) more hMore rfl

/-- A line with its first word. -/
theorem startsElement_spaced {first rest : List Char} (hFirst : ' ' ∉ first) (hInk : Inked (first ++ ' ' :: rest)) :
    startsElement (first ++ ' ' :: rest) =
      (isWordOf elementKeywords first || (rest.splitOn ' ').head?.any relates) := by
  have hContent : TextLine.content (first ++ ' ' :: rest) = first ++ ' ' :: rest := dropWhile_spaces hInk 0
  rw [startsElement, hContent, List.splitOn_append_cons_self_of_not_mem hFirst]
  simp [List.head?_eq_getElem?]

theorem startsElement_of_plain {first rest : List Char} (hFirst : ' ' ∉ first) (hInk : Inked (first ++ ' ' :: rest))
    (hPlain : Plain (first ++ ' ' :: rest)) (hRest : Plain rest) : startsElement (first ++ ' ' :: rest) = false := by
  obtain ⟨second, words, more, hSplit, hSecond, hMore⟩ := splitOn_space rest
  have hBracket : second.head? ≠ some '[' := by
    intro hHead
    refine hRest.bracket ?_
    rw [hSecond, List.head?_append, hHead]
    rfl
  have hRelation : isWordOf relationKeywords second = false :=
    (hSecond ▸ hRest).not_isWordOf (fun _ => List.mem_append_right _) (endsWord_of_space hMore)
  have hElement : isWordOf elementKeywords first = false :=
    hPlain.not_isWordOf (fun _ => List.mem_append_left _) (Phrase.endsWord_cons (by decide) rest)
  rw [startsElement_spaced hFirst hInk, hSplit, hElement]
  simp [relates, hRelation, hBracket]

structure IsProperty (content : String) : Prop where
  solid : Solid content
  plain : startsElement content.toList = false

section Property

variable {name type rest text : String} (keyword : Keyword)

theorem isProperty_spaced {first : String} (hSolid : Solid (first ++ " " ++ rest)) (hFirst : ' ' ∉ first.toList)
    (hPlain : Plain (first.toList ++ ' ' :: rest.toList)) (hRest : Plain rest.toList) :
    IsProperty (first ++ " " ++ rest) := by
  refine ⟨hSolid, ?_⟩
  have hInk := hSolid.inked
  have hChars : (first ++ " " ++ rest).toList = first.toList ++ ' ' :: rest.toList := by simp
  rw [hChars] at hInk ⊢
  exact startsElement_of_plain hFirst hInk hPlain hRest

theorem not_space_of_word (h : isWord name = true) : ' ' ∉ name.toList :=
  fun hSpace => absurd (isWordChar_of_mem_word h hSpace) (by decide)

theorem not_space_writtenName (h : isWord name = true) : ' ' ∉ (writtenName name).toList := by
  rw [writtenName]
  split
  · rw [String.toList_append, List.mem_append, not_or]
    exact ⟨by decide, not_space_of_word h⟩
  · exact not_space_of_word h

theorem isProperty_keyword (hNot : keyword ∉ elementKeywords ++ relationKeywords) (hSolid : Solid rest)
    (hRest : Plain rest.toList) : IsProperty (keyword.text ++ " " ++ rest) :=
  isProperty_spaced ((solid_word (isWord_text keyword)).spaced hSolid) (not_space_of_word (isWord_text keyword))
    (plain_keyword hNot (Phrase.endsWord_cons (by decide) _)) hRest

theorem isProperty_value (hNot : keyword ∉ elementKeywords ++ relationKeywords) (hText : Solid text) :
    IsProperty (keyword.text ++ " = " ++ text) := by
  have hEquals : Solid "=" := ⟨⟨'=', rfl, by decide⟩, ⟨'=', rfl, by decide⟩, by decide⟩
  have hRest : Plain ("=" ++ " " ++ text).toList := by
    rw [String.append_assoc, String.toList_append]
    exact plain_of_head (c := '=') (by decide) (by decide)
  have hLine : keyword.text ++ " = " ++ text = keyword.text ++ " " ++ ("=" ++ " " ++ text) := by
    rw [show " = " = " " ++ ("=" ++ " ") from rfl]
    simp only [String.append_assoc]
  rw [hLine]
  exact isProperty_keyword keyword hNot (hEquals.spaced hText) hRest

/-- A type, and a name behind it. -/
theorem isProperty_typed (hType : IsCanonicalType type) (hSolid : Solid rest) (hRest : Plain rest.toList) :
    IsProperty (writtenType type ++ " " ++ rest) := by
  have hPlain : Plain ((writtenType type).toList ++ ' ' :: rest.toList) :=
    plain_writtenType hType (Phrase.endsWord_cons (by decide) _)
  have hLine := (solid_writtenType hType).spaced hSolid
  obtain ⟨n, hWord, hNamed | hReference | ⟨kind, hCollection⟩⟩ := writtenType_cases_of_canonical hType
  · rw [hNamed] at hPlain hLine ⊢
    exact isProperty_spaced hLine (not_space_writtenName hWord) hPlain hRest
  · have hSplit : "- " ++ writtenName n ++ " " ++ rest = "-" ++ " " ++ (writtenName n ++ " " ++ rest) := by
      rw [show "- " = "-" ++ " " from rfl]
      simp only [String.append_assoc]
    rw [hReference, hSplit] at hLine ⊢
    refine isProperty_spaced hLine (by decide) (plain_of_head (c := '-') (by decide) (by decide)) ?_
    rw [String.append_assoc, String.toList_append]
    exact plain_writtenName hWord (Phrase.endsBefore_space _).trails.endsWord
  · rw [hCollection] at hPlain hLine ⊢
    refine isProperty_spaced hLine ?_ hPlain hRest
    simp only [String.toList_append, List.mem_append, not_or]
    exact ⟨⟨⟨not_space_of_word (isWord_text _), by decide⟩, not_space_writtenName hWord⟩, by decide⟩

theorem isProperty_attribute {member : Attribute} (h : member.WellFormed) : IsProperty (attributeLine member) := by
  have hKey : Solid "key" := solid_word (by decide)
  have hNullable : Solid "nullable" := solid_word (by decide)
  have hTrails := (Phrase.trails_flagText "key" member.key).append (Phrase.trails_flagText "nullable" member.nullable)
  rw [Phrase.attributeLine_eq]
  refine isProperty_typed h.type ?_ ?_
  · rw [← String.append_assoc]
    exact ((solid_writtenMemberName h.name).flag hKey _).flag hNullable _
  · rw [String.toList_append]
    exact plain_writtenMemberName h.name hTrails.endsWord

theorem solid_typedName (hType : IsCanonicalType type) (hName : isWord name = true) : Solid (typedName type name) :=
  (solid_writtenType hType).spaced (solid_writtenMemberName hName)

theorem isProperty_define {head arguments : String} (hHead : Solid head) (hArguments : '\n' ∉ arguments.toList)
    (hPlain : ∀ more, EndsWord more → Plain (head.toList ++ more)) :
    IsProperty ("def " ++ head ++ "(" ++ arguments ++ ");") := by
  have hOpen : '\n' ∉ ("(" ++ arguments).toList := by
    rw [String.toList_append, List.mem_append, not_or]
    exact ⟨by decide, hArguments⟩
  have hClose : Solid ");" := ⟨⟨')', rfl, by decide⟩, ⟨';', rfl, by decide⟩, by decide⟩
  have hLine : "def " ++ head ++ "(" ++ arguments ++ ");" =
      Keyword.define.text ++ " " ++ (head ++ ("(" ++ arguments) ++ ");") := by
    rw [show "def " = Keyword.define.text ++ " " from rfl]
    simp only [String.append_assoc]
  rw [hLine]
  refine isProperty_keyword .define (by decide) (hHead.around hOpen hClose) ?_
  rw [String.append_assoc, String.toList_append, String.append_assoc]
  exact hPlain _ (Phrase.EndsBefore.append ⟨'(', [], rfl, by decide⟩ _).trails.endsWord

theorem isProperty_operation {member : Operation} (h : member.WellFormed) : IsProperty (operationLine member) := by
  obtain ⟨name, returnType, parameters⟩ := member
  have hArguments : '\n' ∉ (", ".intercalate (parameters.map fun parameter =>
      typedName parameter.type parameter.name)).toList := by
    refine oneLine_intercalate (by decide) ?_
    rw [List.forall_mem_map]
    intro parameter hParameter
    obtain ⟨hName, hType⟩ := h.parameters parameter hParameter
    exact (solid_typedName hType hName).oneLine
  cases returnType with
  | none => exact isProperty_define (solid_writtenMemberName h.name) hArguments fun _ => plain_writtenMemberName h.name
  | some type =>
    have hType := h.returnType type rfl
    refine isProperty_define (solid_typedName hType h.name) hArguments fun more _ => ?_
    change Plain ((writtenType type ++ " " ++ writtenMemberName name).toList ++ more)
    rw [String.append_assoc, String.toList_append, List.append_assoc]
    exact plain_writtenType hType ((Phrase.endsBefore_space _).endsWord more)

end Property

/-! ## Headers -/

/-- The header of an element that starts with a keyword. -/
def elementHeader (kind : Keyword) (name : String) : String :=
  kind.text ++ " " ++ writtenName name

/-- What stands between the names of two contexts. -/
def Relationship.arrow : Relationship → String
  | symmetric kind _ _ => kind.keyword.text
  | directed relationship =>
    rolesText .u (relationship.upstreamPatterns.map UpstreamPattern.keyword) ++ " -> "
      ++ rolesText .d (relationship.downstreamPatterns.map DownstreamPattern.keyword)

def Relationship.header (relationship : Relationship) : String :=
  writtenName relationship.participants.1 ++ " " ++ relationship.arrow ++ " "
    ++ writtenName relationship.participants.2

section Header

variable (keyword : Keyword) {name first arrow second : String}

theorem isHeader_element (hElement : keyword ∈ elementKeywords) (hName : isWord name = true) :
    IsHeader (elementHeader keyword name) := by
  have hSolid : Solid (elementHeader keyword name) :=
    (solid_word (isWord_text keyword)).spaced (solid_writtenName hName)
  have hKeyword : isWordOf elementKeywords keyword.text.toList = true :=
    List.any_eq_true.mpr ⟨keyword, hElement, beq_self_eq_true _⟩
  refine ⟨hSolid, fun ending _ => ?_⟩
  have hInk := hSolid.inked_append ending
  have hChars : (elementHeader keyword name ++ ending).toList =
      keyword.text.toList ++ ' ' :: ((writtenName name).toList ++ ending.toList) := by
    simp [elementHeader]
  rw [hChars] at hInk ⊢
  rw [startsElement_spaced (not_space_of_word (isWord_text keyword)) hInk, hKeyword, Bool.true_or]

theorem isHeader_contextMap : IsHeader "ContextMap" := by
  refine ⟨solid_word (by decide), ?_⟩
  simp only [headerEndings, bareEndings, List.forall_mem_cons]
  decide

theorem isHeader_between (hFirst : isWord first = true) (hArrow : Solid arrow) (hSecond : isWord second = true)
    (hRelates : ∀ more, ((arrow.toList ++ ' ' :: more).splitOn ' ').head?.any relates = true) :
    IsHeader (writtenName first ++ " " ++ arrow ++ " " ++ writtenName second) := by
  have hSolid := ((solid_writtenName hFirst).spaced hArrow).spaced (solid_writtenName hSecond)
  refine ⟨hSolid, fun ending _ => ?_⟩
  have hInk := hSolid.inked_append ending
  have hChars : (writtenName first ++ " " ++ arrow ++ " " ++ writtenName second ++ ending).toList =
      (writtenName first).toList ++ ' ' :: (arrow.toList ++ ' ' :: ((writtenName second).toList ++ ending.toList)) := by
    simp
  rw [hChars] at hInk ⊢
  rw [startsElement_spaced (not_space_writtenName hFirst) hInk, Bool.or_eq_true]
  exact .inr (hRelates _)

theorem relates_keyword (hRelation : keyword ∈ relationKeywords) (more : List Char) :
    ((keyword.text.toList ++ ' ' :: more).splitOn ' ').head?.any relates = true := by
  have hKeyword : isWordOf relationKeywords keyword.text.toList = true :=
    List.any_eq_true.mpr ⟨keyword, hRelation, beq_self_eq_true _⟩
  rw [List.splitOn_append_cons_self_of_not_mem (not_space_of_word (isWord_text keyword)), List.head?_cons,
    Option.any_some, relates, hKeyword, Bool.true_or]

theorem relates_bracket (more : List Char) : (('[' :: more).splitOn ' ').head?.any relates = true := by
  obtain ⟨word, words, rest, hSplit, hChars, hRest⟩ := splitOn_space ('[' :: more)
  -- the first word is not empty, since the text starts with no space
  cases word with
  | nil => exact absurd (hRest '[' (by rw [← List.nil_append rest, ← hChars]; rfl)) (by decide)
  | cons c cs =>
    obtain rfl : '[' = c := (List.cons.inj hChars).1
    simp [hSplit, relates]

theorem solid_rolesText (side : Keyword) (patterns : List Keyword) : Solid (rolesText side patterns) := by
  have hOpen : Solid "[" := ⟨⟨'[', rfl, by decide⟩, ⟨'[', rfl, by decide⟩, by decide⟩
  have hClose : Solid "]" := ⟨⟨']', rfl, by decide⟩, ⟨']', rfl, by decide⟩, by decide⟩
  refine hOpen.around (oneLine_intercalate (by decide) ?_) hClose
  rw [List.forall_mem_map]
  exact fun keyword _ => (solid_word (isWord_text keyword)).oneLine

theorem isHeader_relationship {relationship : Relationship} (h : relationship.WellNamed) :
    IsHeader relationship.header := by
  cases relationship with
  | symmetric kind first second =>
    refine isHeader_between h.1 (solid_word (isWord_text _)) h.2 (relates_keyword _ ?_)
    cases kind <;> decide
  | directed relationship =>
    refine isHeader_between h.upstream ((solid_rolesText _ _).around (by decide) (solid_rolesText _ _)) h.downstream
      fun more => ?_
    simp only [Relationship.arrow, rolesText, String.append_assoc, String.toList_append, List.append_assoc]
    exact relates_bracket _

end Header

end DomainAtlas
