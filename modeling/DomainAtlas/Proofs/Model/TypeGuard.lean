import DomainAtlas.Proofs.Editing.Steps
import DomainAtlas.Proofs.Model.TypeRefs
import Mathlib.Data.List.TakeWhile

/-! # Accepted types and their canonical forms

A type is looked at twice before it is accepted: its text is, for a name that stands for a shape the language does not
have, and the written form is read. Carets and comments are read over but not looked over, so behind them such a name
is accepted. The canonical form has neither; it is accepted as the same type unless the name in it is such a name.
-/
set_option autoImplicit false

namespace DomainAtlas

open Text

/-- One of the names that stand for a shape the language does not have, in letters of either case. -/
def IsForeign (name : String) : Prop :=
  ∃ entry ∈ foreignTypes, sameIgnoringCase entry.1 name = true

instance (name : String) : Decidable (IsForeign name) :=
  inferInstanceAs (Decidable (∃ entry ∈ foreignTypes, sameIgnoringCase entry.1 name = true))

theorem foreignShape?_eq_none_iff {name : String} : foreignShape? name = none ↔ ¬ IsForeign name := by
  rw [foreignShape?, Option.map_eq_none_iff, List.find?_eq_none, IsForeign]
  simp

theorem refuseForeign_eq_ok {type : String} {nothing : Unit} :
    refuseForeign type = .ok nothing ↔ ¬ IsForeign (baseOfType type) := by
  rw [← foreignShape?_eq_none_iff, refuseForeign]
  split
  · rename_i shape hShape
    simp [hShape]
  · rename_i hNone
    simp [hNone]

/-- The type is no collection of something that is refused. -/
def TypeRef.ElementAllowed : TypeRef → Prop
  | collection _ element => ¬ IsForeign (baseOfType element)
  | named _ => True
  | reference _ => True

theorem acceptType_eq_ok {given : String} {type : TypeRef} :
    acceptType given = .ok type ↔
      trim given ≠ "" ∧ ¬ IsForeign (baseOfType (trim given)) ∧
        TypeRef.ofText (writtenType (trim given)) = .ok type ∧ type.ElementAllowed := by
  unfold acceptType
  dsimp only
  rw [unless_eq_ok, bind_eq_ok]
  refine and_congr_right fun _ => ?_
  constructor
  · rintro ⟨nothing, hForeign, h⟩
    refine ⟨refuseForeign_eq_ok.mp hForeign, ?_⟩
    split at h
    · rename_i hText
      obtain ⟨nothing, hElement, h⟩ := bind_eq_ok.mp h
      cases h
      exact ⟨hText, refuseForeign_eq_ok.mp hElement⟩
    · rename_i hOther hText
      cases h
      refine ⟨hText, ?_⟩
      cases type with
      | collection kind element => exact absurd rfl (hOther kind element)
      | named => trivial
      | reference => trivial
    · cases h
  · rintro ⟨hForeign, hText, hElement⟩
    refine ⟨(), refuseForeign_eq_ok.mpr hForeign, ?_⟩
    rw [hText]
    cases type with
    | collection kind element =>
      exact bind_eq_ok.mpr ⟨(), refuseForeign_eq_ok.mpr hElement, rfl⟩
    | named => rfl
    | reference => rfl

theorem ofText_of_acceptType {given : String} {type : TypeRef} (h : acceptType given = .ok type) :
    TypeRef.ofText (writtenType given) = .ok type := by
  rw [← writtenType_trim]
  exact (acceptType_eq_ok.mp h).2.2.1

/-! ## The part of a text that is looked over -/

/-- Dashes before the base and blanks around it are looked past. -/
theorem baseOfType_dashed {dashes target : List Char} {n : String} (hDashes : ∀ c ∈ dashes, c = '-')
    (hTarget : trimChars target = n.toList) (hWord : isWord n = true) :
    baseOfType (String.ofList (dashes ++ target)) = n := by
  obtain ⟨front, back, hSplit, hFront, hBack⟩ := trimChars_split target
  rw [hTarget] at hSplit
  have hMem : ∀ c ∈ target, isBlank c = true ∨ isWordChar c = true := by
    rw [hSplit, List.forall_mem_append, List.forall_mem_append]
    exact ⟨fun c hc => .inl (hFront c hc), fun c hc => .inr (isWordChar_of_mem_word hWord hc),
      fun c hc => .inl (hBack c hc)⟩
  have hOther : ∀ {d : Char}, isWordChar d = false → 32 < d.toNat ∧ d.toNat < 133 → ∀ c ∈ target, c ≠ d := by
    intro d hNot hRange c hc
    rcases hMem c hc with hBlank | hWordChar
    · exact ne_of_isBlank hBlank hRange
    · exact ne_of_isWordChar hWordChar hNot
  have hDash : target.dropWhile (fun c => c == '-') = target := by
    cases hCons : target with
    | nil => rfl
    | cons c cs =>
      have hNe : c ≠ '-' := hOther (by decide) (by decide) c (hCons ▸ List.mem_cons_self)
      exact List.dropWhile_cons_of_neg (by simpa using hNe)
  have hAngle : target.takeWhile (fun c => c != '<') = target :=
    List.takeWhile_eq_self_iff.mpr fun c hc => bne_iff_ne.mpr (hOther (by decide) (by decide) c hc)
  have hDrop : (dashes ++ target).dropWhile (fun c => c == '-') = target := by
    rw [List.dropWhile_append_of_pos fun c hc => beq_iff_eq.mpr (hDashes c hc), hDash]
  rw [baseOfType, String.toList_ofList, hDrop, hAngle, trim, String.toList_ofList, hTarget, String.ofList_toList]

theorem baseOfType_of_trimChars {text n : String} (h : trimChars text.toList = n.toList) (hWord : isWord n = true) :
    baseOfType text = n := by
  have hBase := @baseOfType_dashed [] _ _ (fun c hc => absurd hc List.not_mem_nil) h hWord
  rwa [List.nil_append, String.ofList_toList] at hBase

theorem baseOfType_word {n : String} (h : isWord n = true) : baseOfType n = n :=
  baseOfType_of_trimChars (trimChars_word h) h

theorem baseOfType_collection {kind : String} (e : String) (hKind : kind = "List" ∨ kind = "Set") :
    baseOfType (kind ++ "<" ++ e ++ ">") = kind := by
  obtain ⟨c, cs, hList, hStart, hAll⟩ := isWordChars_iff.mp (isWord_collectionKind hKind)
  have hDash : c ≠ '-' := ne_of_isWordChar (isWordChar_of_isWordStart hStart) (by decide)
  have hDrop : (kind.toList ++ '<' :: (e.toList ++ ['>'])).dropWhile (fun d => d == '-') =
      kind.toList ++ '<' :: (e.toList ++ ['>']) := by
    rw [hList, List.cons_append]
    exact List.dropWhile_cons_of_neg (by simpa using hDash)
  have hTake : (kind.toList ++ '<' :: (e.toList ++ ['>'])).takeWhile (fun d => d != '<') = kind.toList := by
    rw [List.takeWhile_append_of_pos fun d hd => notAngle_of_isWordChar (hAll d hd),
      List.takeWhile_cons_of_neg (by simp), List.append_nil]
  rw [baseOfType, toList_collection, hDrop, hTake, String.ofList_toList, trim_word (isWord_collectionKind hKind)]

/-! ## Canonical forms -/

theorem baseOfType_reference {n : String} (h : isWord n = true) : baseOfType ("- " ++ n) = n := by
  have hTrim : trimChars (' ' :: n.toList) = n.toList := by
    rw [trimChars_space, trimChars_word h]
  have hBase := @baseOfType_dashed ['-'] _ _ (by simp) hTrim h
  rwa [List.singleton_append, ← toList_reference, String.ofList_toList] at hBase

theorem not_isForeign_collectionKind {kind : String} (h : kind = "List" ∨ kind = "Set") : ¬ IsForeign kind := by
  rw [← foreignShape?_eq_none_iff]
  rcases h with rfl | rfl <;> decide

theorem TypeRef.trim_text {type : TypeRef} (h : isWord type.baseName = true) : trim type.text = type.text := by
  cases type with
  | named n => exact trim_word h
  | reference n => exact trim_reference h
  | collection kind e => exact trim_collection e (collectionKind_text kind)

theorem ne_empty_of_isWord {n : String} (h : isWord n = true) : n ≠ "" := by
  rintro rfl
  exact absurd h (by decide)

/-- The canonical form is looked over and read as what it stands for. -/
theorem acceptType_text_iff {type : TypeRef} (h : isWord type.baseName = true) :
    acceptType type.text = .ok type ↔ ¬ IsForeign type.baseName := by
  have hRead := TypeRef.ofText_writtenType h
  rw [acceptType_eq_ok, TypeRef.trim_text h, hRead]
  cases type with
  | named n =>
    have hBase : baseOfType n = n := baseOfType_word h
    have hName : n ≠ "" := ne_empty_of_isWord h
    simp [TypeRef.text, TypeRef.baseName, TypeRef.ElementAllowed, hBase, hName]
  | reference n =>
    have hBase : baseOfType ("- " ++ n) = n := baseOfType_reference h
    simp [TypeRef.text, TypeRef.baseName, TypeRef.ElementAllowed, hBase]
  | collection kind e =>
    have hKind := collectionKind_text kind
    have hBase : baseOfType (kind.keyword.text ++ "<" ++ e ++ ">") = kind.keyword.text := baseOfType_collection e hKind
    have hElement : baseOfType e = e := baseOfType_word h
    simp [TypeRef.text, TypeRef.baseName, TypeRef.ElementAllowed, hBase, hElement, not_isForeign_collectionKind hKind]

/-- The text in which the name of a type is looked for: the element of a collection, and any other type as a whole. -/
def TypeRef.examined : TypeRef → String
  | collection _ element => element
  | type => type.text

theorem TypeRef.baseOfType_examined {type : TypeRef} (h : isWord type.baseName = true) :
    baseOfType type.examined = type.baseName := by
  cases type with
  | named n => exact baseOfType_word h
  | reference n => exact baseOfType_reference h
  | collection kind e => exact baseOfType_word h

theorem TypeRef.text_ne_empty {type : TypeRef} (h : isWord type.baseName = true) : type.text ≠ "" := by
  cases type with
  | named n => exact ne_empty_of_isWord h
  | reference n => simp [TypeRef.text]
  | collection kind e => simp [TypeRef.text]

theorem acceptType_of_refused {given : String} {reason : InvalidType} (hNonempty : trim given ≠ "")
    (h : refuseForeign (trim given) = .error reason) : acceptType given = .error reason := by
  unfold acceptType
  dsimp only
  rw [if_neg hNonempty, h]
  rfl

theorem acceptType_of_refused_element {given element : String} (kind : CollectionKind) {reason : InvalidType}
    (hNonempty : trim given ≠ "") (hAllowed : refuseForeign (trim given) = .ok ())
    (hText : TypeRef.ofText (writtenType (trim given)) = .ok (.collection kind element))
    (h : refuseForeign element = .error reason) : acceptType given = .error reason := by
  unfold acceptType
  dsimp only
  rw [if_neg hNonempty, hAllowed, hText]
  dsimp only
  rw [h]
  rfl

/-- A canonical form with a foreign name is refused for that name, and not for its form. -/
theorem acceptType_text_of_foreignShape? {type : TypeRef} {shape : ForeignShape} (h : isWord type.baseName = true)
    (hShape : foreignShape? type.baseName = some shape) :
    acceptType type.text = .error (.foreign type.examined type.baseName shape) := by
  have hTrim : trim type.text = type.text := TypeRef.trim_text h
  have hNonempty : trim type.text ≠ "" := by
    rw [hTrim]
    exact TypeRef.text_ne_empty h
  have hRefused : refuseForeign type.examined = .error (.foreign type.examined type.baseName shape) := by
    rw [refuseForeign, TypeRef.baseOfType_examined h, hShape]
  cases type with
  | named n =>
    refine acceptType_of_refused hNonempty ?_
    rw [hTrim]
    exact hRefused
  | reference n =>
    refine acceptType_of_refused hNonempty ?_
    rw [hTrim]
    exact hRefused
  | collection kind e =>
    have hKind := collectionKind_text kind
    have hBase : baseOfType (TypeRef.collection kind e).text = kind.keyword.text := baseOfType_collection e hKind
    refine acceptType_of_refused_element kind hNonempty ?_ ?_ hRefused
    · rw [refuseForeign_eq_ok, hTrim, hBase]
      exact not_isForeign_collectionKind hKind
    · rw [hTrim]
      exact TypeRef.ofText_writtenType h

theorem acceptType_text_of_isForeign {type : TypeRef} (h : isWord type.baseName = true)
    (hForeign : IsForeign type.baseName) (hSingle : ∀ kind e, type ≠ .collection kind e) :
    ∃ shape, acceptType type.text = .error (.foreign type.text type.baseName shape) := by
  obtain ⟨shape, hShape⟩ := Option.ne_none_iff_exists'.mp fun hNone => foreignShape?_eq_none_iff.mp hNone hForeign
  have hExamined : type.examined = type.text := by
    cases type with
    | collection kind e => exact absurd rfl (hSingle kind e)
    | named => rfl
    | reference => rfl
  have hRefused := acceptType_text_of_foreignShape? h hShape
  rw [hExamined] at hRefused
  exact ⟨shape, hRefused⟩

/-! ## Names that are not looked over -/

theorem Scans.trimChars_of_name {cs : List Char} {n : String} (h : Scans cs [.name n]) (hCaret : '^' ∉ cs)
    (hSlash : '/' ∉ cs) : trimChars cs = n.toList := by
  obtain ⟨front, slice, back, rfl, hFront, hSlice, hBack⟩ := h.exists_first hSlash
  rw [List.mem_append, List.mem_append, not_or, not_or] at hCaret hSlash
  obtain ⟨rfl | rfl, hWord⟩ := slice_of_name hSlice
  · exact trimChars_between hFront hWord (hBack.isBlank_of_nil hSlash.2.2)
  · exact absurd List.mem_cons_self hCaret.2.1

/-- What the written form of a text adds to it. -/
theorem writtenType_cases {text : String} (hTrim : trim text = text) :
    (∃ target, text.toList = '-' :: target ∧
      writtenType text = "- " ++ writtenName (trim (String.ofList target))) ∨
    (∃ kind inner, (kind = "List" ∨ kind = "Set") ∧ writtenType text = kind ++ "<" ++ inner ++ ">") ∨
    (∀ target, text.toList ≠ '-' :: target) ∧ (writtenType text = text ∨ writtenType text = writtenName text) := by
  simp only [writtenType, hTrim]
  split
  · rename_i target hTarget
    exact .inl ⟨target, hTarget, rfl⟩
  · rename_i hOther
    split
    · unfold writtenType.ofCollection
      split
      · rename_i hKind
        exact .inr (.inl ⟨_, _, hKind.2, rfl⟩)
      · exact .inr (.inr ⟨hOther, .inl rfl⟩)
    · exact .inr (.inr ⟨hOther, .inr rfl⟩)

theorem isWord_of_isKeyword {w : String} (h : isKeyword w = true) : isWord w = true := by
  obtain ⟨k, hKeyword⟩ := Option.isSome_iff_exists.mp h
  rw [← Keyword.text_of_ofWord?_eq_some hKeyword]
  exact isWord_text k

theorem tokenOfWord_collectionKind {kind : String} (h : kind = "List" ∨ kind = "Set") :
    ∃ k, Reading.tokenOfWord kind = .keyword k := by
  rcases h with rfl | rfl
  · exact ⟨.list, tokenOfWord_text .list⟩
  · exact ⟨.set, tokenOfWord_text .set⟩

variable {text : String} {type : TypeRef}

/-- A text that is read as it stands. -/
theorem baseOfType_of_scans (hTrim : trim text = text) (hNoDash : ∀ target, text.toList ≠ '-' :: target)
    (hCaret : '^' ∉ text.toList) (hSlash : '/' ∉ text.toList) (hWord : isWord type.baseName = true)
    (hSingle : ∀ kind e, type ≠ .collection kind e) (h : Scans text.toList type.tokens) :
    baseOfType text = type.baseName := by
  cases type with
  | collection kind e => exact absurd rfl (hSingle kind e)
  | named n => exact baseOfType_of_trimChars (h.trimChars_of_name hCaret hSlash) hWord
  | reference n =>
    obtain ⟨front, slice, rest, hSplit, hFront, hSlice, -⟩ := h.exists_first hSlash
    rw [slice_of_symbol hSlice] at hSplit
    cases front with
    | nil => exact absurd hSplit (hNoDash rest)
    | cons c cs =>
      have hHead : c ∈ (trimChars text.toList).head? := by
        rw [← toList_trim, hTrim, hSplit]
        rfl
      have hBlank := hFront c List.mem_cons_self
      rw [not_isBlank_of_head_trimChars hHead] at hBlank
      cases hBlank

theorem baseOfType_of_dash {target : List Char} (hTarget : text.toList = '-' :: target) (hCaret : '^' ∉ text.toList)
    (hSlash : '/' ∉ text.toList)
    (h : TypeRef.ofText ("- " ++ writtenName (trim (String.ofList target))) = .ok type) :
    baseOfType text = type.baseName := by
  have hBase {n : String} (hTrimmed : trimChars target = n.toList) (hn : isWord n = true) : baseOfType text = n := by
    have hDashed := @baseOfType_dashed ['-'] target n (by simp) hTrimmed hn
    rwa [List.singleton_append, ← hTarget, String.ofList_toList] at hDashed
  generalize hName : trim (String.ofList target) = name at h
  have hNameChars : trimChars target = name.toList := by
    rw [← hName, toList_trim, String.toList_ofList]
  cases hKeyword : isKeyword name with
  | true =>
    have hWord := isWord_of_isKeyword hKeyword
    have hRead := @TypeRef.ofText_writtenType (.reference name) hWord
    rw [TypeRef.text, writtenType_reference hWord, h] at hRead
    cases hRead
    exact hBase hNameChars hWord
  | false =>
    have hWord := TypeRef.isWord_baseName_of_ofText h
    obtain ⟨tokens, hScans, hType⟩ := TypeRef.ofText_eq_ok.mp h
    rw [Phrase.eq_tokens_of_typeRef hType, writtenName, hKeyword, if_neg Bool.false_ne_true, toList_reference] at hScans
    obtain ⟨others, hTokens, hOthers⟩ :=
      @Scans.of_symbol .dash (' ' :: name.toList) _ (by simp [Symbol.Ends]) hScans
    cases type with
    | named n => cases hTokens
    | collection kind e => cases hTokens
    | reference n =>
      cases hTokens
      have hMem : ∀ c ∈ name.toList, c ∈ text.toList := by
        intro c hc
        rw [← hNameChars] at hc
        rw [hTarget]
        exact List.mem_cons_of_mem _ (mem_of_mem_trimChars hc)
      have hSpaced : trimChars (' ' :: name.toList) = n.toList := by
        apply hOthers.trimChars_of_name
        · simpa using fun hc => hCaret (hMem _ hc)
        · simpa using fun hc => hSlash (hMem _ hc)
      have hTrimmed : trimChars target = n.toList := by
        rw [← trimChars_trimChars, hNameChars, ← hSpaced, trimChars_space]
      exact hBase hTrimmed hWord

theorem collection_of_ofText {kind inner : String} (hKind : kind = "List" ∨ kind = "Set")
    (h : TypeRef.ofText (kind ++ "<" ++ inner ++ ">") = .ok type) : ∃ k e, type = .collection k e := by
  obtain ⟨tokens, hScans, hType⟩ := TypeRef.ofText_eq_ok.mp h
  have hEnds : EndsWord ('<' :: (inner.toList ++ ['>'])) := Phrase.endsWord_cons (by decide) _
  rw [toList_collection, Phrase.eq_tokens_of_typeRef hType] at hScans
  obtain ⟨others, hTokens, -⟩ := hScans.of_word (isWord_collectionKind hKind) hEnds
  obtain ⟨k, hToken⟩ := tokenOfWord_collectionKind hKind
  rw [hToken] at hTokens
  cases type with
  | collection k e => exact ⟨k, e, rfl⟩
  | named n => cases hTokens
  | reference n => cases hTokens

/-- Where neither a caret nor a comment hides it, the name in an accepted type is the part that is looked over. -/
theorem baseOfType_of_ofText (hTrim : trim text = text) (hCaret : '^' ∉ text.toList) (hSlash : '/' ∉ text.toList)
    (hSingle : ∀ kind e, type ≠ .collection kind e) (h : TypeRef.ofText (writtenType text) = .ok type) :
    baseOfType text = type.baseName := by
  have hScanned (hSame : TypeRef.ofText text = .ok type) : Scans text.toList type.tokens := by
    obtain ⟨tokens, hScans, hType⟩ := TypeRef.ofText_eq_ok.mp hSame
    rwa [← Phrase.eq_tokens_of_typeRef hType]
  obtain ⟨target, hTarget, hWritten⟩ | ⟨kind, inner, hKind, hWritten⟩ | ⟨hNoDash, hWritten⟩ :=
    writtenType_cases hTrim
  · rw [hWritten] at h
    exact baseOfType_of_dash hTarget hCaret hSlash h
  · rw [hWritten] at h
    obtain ⟨k, e, hCollection⟩ := collection_of_ofText hKind h
    exact absurd hCollection (hSingle k e)
  · have hWord := TypeRef.isWord_baseName_of_ofText h
    cases hKeyword : isKeyword text with
    | true =>
      have hRead := @TypeRef.ofText_writtenType (.named text) (isWord_of_isKeyword hKeyword)
      rw [TypeRef.text, h] at hRead
      cases hRead
      exact baseOfType_word (isWord_of_isKeyword hKeyword)
    | false =>
      have hSame : writtenType text = text := by
        rcases hWritten with hWritten | hWritten
        · exact hWritten
        · rw [hWritten, writtenName, hKeyword, if_neg Bool.false_ne_true]
      rw [hSame] at h
      exact baseOfType_of_scans hTrim hNoDash hCaret hSlash hWord hSingle (hScanned h)

theorem acceptType_text_of_acceptType {given : String} (h : acceptType given = .ok type) :
    (¬ IsForeign type.baseName → acceptType type.text = .ok type) ∧
      (IsForeign type.baseName →
        (∃ shape, acceptType type.text = .error (.foreign type.text type.baseName shape)) ∧
          (∀ kind e, type ≠ .collection kind e) ∧ ('^' ∈ given.toList ∨ '/' ∈ given.toList)) := by
  obtain ⟨-, hBase, hText, hElement⟩ := acceptType_eq_ok.mp h
  have hWord := TypeRef.isWord_baseName_of_ofText hText
  refine ⟨(acceptType_text_iff hWord).mpr, fun hForeign => ?_⟩
  have hSingle : ∀ kind e, type ≠ .collection kind e := by
    rintro kind e rfl
    have hBaseElement : baseOfType e = e := baseOfType_word hWord
    rw [TypeRef.ElementAllowed, hBaseElement] at hElement
    exact hElement hForeign
  refine ⟨acceptType_text_of_isForeign hWord hForeign hSingle, hSingle, ?_⟩
  by_contra hPlain
  rw [not_or] at hPlain
  have hMem : ∀ c ∈ (trim given).toList, c ∈ given.toList := by
    intro c hc
    rw [toList_trim] at hc
    exact mem_of_mem_trimChars hc
  have hSame : baseOfType (trim given) = type.baseName :=
    baseOfType_of_ofText (trim_trim given) (fun hc => hPlain.1 (hMem _ hc)) (fun hc => hPlain.2 (hMem _ hc)) hSingle
      hText
  exact hBase (hSame ▸ hForeign)

/-- Blanks and the keyword in it make no difference to a type. -/
theorem acceptType_text_spacedList :
    acceptType " List < Entity > " = .ok (.collection .list "Entity") ∧
      acceptType "List<Entity>" = .ok (.collection .list "Entity") := by
  have hAccepted : acceptType " List < Entity > " = .ok (.collection .list "Entity") := by decide +kernel
  exact ⟨hAccepted, (acceptType_text_of_acceptType hAccepted).1 (by decide)⟩

/-- A caret hides the name of a map from being looked over. -/
theorem acceptType_escapedMap :
    acceptType "^Map" = .ok (.named "Map") ∧ IsForeign "Map" ∧ acceptType "Map" ≠ .ok (.named "Map") := by
  decide +kernel

end DomainAtlas
