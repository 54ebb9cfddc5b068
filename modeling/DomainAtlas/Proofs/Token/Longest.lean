import DomainAtlas.Proofs.Token.Followed
import DomainAtlas.Proofs.Token.Spans

/-! # The longest lexeme

What a lexeme says is determined by its own slice of the source. A source is cut from its front, each time at the end
of the longest slice that a lexeme may have, and the slices cover it without gap.
-/
set_option autoImplicit false

namespace DomainAtlas

open Text

/-! ## Slices and what they say -/

/-- What a slice says, without regard to what stands around it. -/
inductive Content.DeterminedBy : Content → List Char → Prop
  | keyword (k : Keyword) : DeterminedBy (.token (.keyword k)) k.text.toList
  | name {w : String} (hWord : isWord w = true) (hOther : w ∉ Keyword.words) : DeterminedBy (.token (.name w)) w.toList
  | escaped {w : String} (hWord : isWord w = true) : DeterminedBy (.token (.name w)) ('^' :: w.toList)
  | string {body value : List Char} (h : Quoted.Means body value) :
      DeterminedBy (.token (.string (String.ofList value))) ('"' :: (body ++ ['"']))
  | symbol (s : Symbol) : DeterminedBy (.token (.symbol s)) s.text.toList
  | lineComment {text : List Char} (h : '\n' ∉ text) :
      DeterminedBy (.trivia (.lineComment (String.ofList text))) ('/' :: '/' :: text)
  | blockComment {text : List Char} (h : ¬ ['*', '/'] <:+: text) :
      DeterminedBy (.trivia (.blockComment (String.ofList text))) ('/' :: '*' :: (text ++ ['*', '/']))
  | newline : DeterminedBy (.trivia .newline) ['\n']
  | blank {run : List Char} (hRun : run ≠ []) (h : ∀ c ∈ run, Reading.isInnerBlank c = true) :
      DeterminedBy (.trivia .blank) run

/-- The slice at the front of a text is the longest that a lexeme may have there, and says one thing only. -/
structure Content.Longest (content : Content) (slice rest : List Char) : Prop where
  determined : content.DeterminedBy slice
  longest : ∀ {other : Content} {shorter : List Char}, other.DeterminedBy shorter → shorter <+: slice ++ rest →
    shorter.length < slice.length ∨ (shorter = slice ∧ other = content)

/-- The lexemes of a text that starts at an offset of the source, cut one by one. -/
inductive CutInto : Nat → List Char → List Lexeme → Prop
  | nil {start : Nat} : CutInto start [] []
  | cons {start : Nat} {content : Content} {slice rest : List Char} {lexemes : List Lexeme}
      (hFirst : content.Longest slice rest) (hRest : CutInto (start + byteLength slice) rest lexemes) :
      CutInto start (slice ++ rest) (⟨content, .ofBounds start (start + byteLength slice)⟩ :: lexemes)

/-- Spans from one offset to another: none is empty, and each starts where the one before it ends. -/
inductive Consecutive : Nat → Nat → List Span → Prop
  | nil {offset : Nat} : Consecutive offset offset []
  | cons {stop : Nat} {span : Span} {spans : List Span} (hSpan : span.start < span.stop)
      (hRest : Consecutive span.stop stop spans) : Consecutive span.start stop (span :: spans)

theorem tokenOfWord_of_not_mem {w : String} (h : w ∉ Keyword.words) : Reading.tokenOfWord w = .name w := by
  rw [Reading.tokenOfWord, ofWord?_eq_none_iff.mpr h]

theorem determinedBy_tokenOfWord {w : String} (hWord : isWord w = true) :
    (Content.token (Reading.tokenOfWord w)).DeterminedBy w.toList := by
  cases hKeyword : Keyword.ofWord? w with
  | none =>
    have hOther := ofWord?_eq_none_iff.mp hKeyword
    rw [tokenOfWord_of_not_mem hOther]
    exact .name hWord hOther
  | some k =>
    rw [← Keyword.text_of_ofWord?_eq_some hKeyword, tokenOfWord_text]
    exact .keyword k

theorem Content.DeterminedBy.ne_nil {content : Content} {slice : List Char} (h : content.DeterminedBy slice) :
    slice ≠ [] := by
  have hWordNe {w : String} (hWord : isWord w = true) : w.toList ≠ [] := by
    obtain ⟨c, cs, hList, -⟩ := isWordChars_iff.mp hWord
    rw [hList]
    exact List.cons_ne_nil c cs
  cases h with
  | keyword k => exact hWordNe (isWord_text k)
  | name hWord _ => exact hWordNe hWord
  | symbol s => exact List.ne_nil_of_length_pos s.length_text_pos
  | blank hRun _ => exact hRun
  | _ => exact List.cons_ne_nil _ _

/-! ## A lexeme that is read -/

namespace Reading

variable {c : Char} {cs slice rest : List Char} {content : Content}

theorem not_infix_of_splitAtClose? {text : List Char} (h : splitAtClose? cs = some (text, rest)) :
    ¬ ['*', '/'] <:+: text := by
  induction cs generalizing text with
  | nil => cases h
  | cons c cs ih =>
    rw [splitAtClose?] at h
    by_cases hClose : c = '*' ∧ cs.head? = some '/'
    · rw [if_pos hClose] at h
      cases h
      exact fun hInfix => absurd (List.infix_nil.mp hInfix) (List.cons_ne_nil _ _)
    · rw [if_neg hClose] at h
      obtain ⟨⟨text, rest⟩, hHalves, hEq⟩ := Option.map_eq_some_iff.mp h
      cases hEq
      have hText := of_splitAtClose?_eq_some cs hHalves
      intro hInfix
      rcases List.infix_cons_iff.mp hInfix with hFront | hLater
      · -- the pair at the front would have closed the comment there
        obtain ⟨rfl, hSlash⟩ := List.cons_prefix_cons.mp hFront
        obtain ⟨others, rfl⟩ := hSlash
        exact hClose ⟨rfl, by rw [← hText]; rfl⟩
      · exact ih hHalves hLater

theorem splitAtClose?_of_not_infix {text : List Char} (h : ¬ ['*', '/'] <:+: text) (rest : List Char) :
    splitAtClose? (text ++ '*' :: '/' :: rest) = some (text, rest) := by
  induction text with
  | nil => rfl
  | cons c text ih =>
    rw [List.infix_cons_iff, not_or] at h
    have hOpen : ¬ (c = '*' ∧ (text ++ '*' :: '/' :: rest).head? = some '/') := by
      rintro ⟨rfl, hHead⟩
      cases text with
      | nil => cases hHead
      | cons d text =>
        cases hHead
        exact h.1 ⟨text, rfl⟩
    rw [List.cons_append, splitAtClose?, if_neg hOpen, ih h.2]
    rfl

theorem determinedBy_of_blockComment (h : blockComment cs = .lexeme content slice rest) :
    content.DeterminedBy slice := by
  unfold blockComment at h
  split at h
  · rename_i hClose
    cases h
    exact .blockComment (not_infix_of_splitAtClose? hClose)
  · exact absurd h (skippingWord_ne_lexeme _ _ _ _ _ _ _)

theorem determinedBy_of_quoted (h : quoted cs = .lexeme content slice rest) : content.DeterminedBy slice := by
  unfold quoted at h
  split at h
  · rename_i hBody
    cases h
    obtain ⟨body, hMeans, rfl, -⟩ := Quoted.means_of_readBody hBody
    exact .string hMeans
  · exact absurd h (skippingWord_ne_lexeme _ _ _ _ _ _ _)
  · exact absurd h (skippingString_ne_lexeme _ _ _ _ _ _ _)

/-- What is said by a lexeme that is read is said by its slice alone. -/
theorem determinedBy_of_ofChars (h : ofChars c cs = .lexeme content slice rest) : content.DeterminedBy slice := by
  have hSplit := append_of_ofChars h
  have hConsumed := consumed_ofChars_ne_nil c cs
  rw [h] at hConsumed
  cases writtenAs_of_ofChars h with
  | lineComment text =>
    obtain ⟨chars, rfl, rfl, hChars⟩ := of_lineComment h
    obtain rfl : text = chars := by simpa using hSplit
    refine .lineComment fun hNewline => ?_
    simpa using hChars _ hNewline
  | blockComment text =>
    obtain ⟨rfl, rfl⟩ := List.cons.inj hSplit
    change ofChars '/' ('*' :: (text ++ ['*', '/'] ++ rest)) = _ at h
    rw [ofChars_slashStar] at h
    exact determinedBy_of_blockComment h
  | string value body =>
    obtain ⟨rfl, rfl⟩ := List.cons.inj hSplit
    rw [ofChars_quote] at h
    exact determinedBy_of_quoted h
  | @escaped run hRun =>
    have hWord : isWord (String.ofList run) = true := by rwa [isWord, String.toList_ofList]
    have hSlice := Content.DeterminedBy.escaped hWord
    rwa [String.toList_ofList] at hSlice
  | word hRun =>
    have hWord : isWord (String.ofList slice) = true := by rwa [isWord, String.toList_ofList]
    have hSlice := determinedBy_tokenOfWord hWord
    rwa [String.toList_ofList] at hSlice
  | symbol s => exact .symbol s
  | newline => exact .newline
  | blank hRun => exact .blank hConsumed hRun

end Reading

/-! ## The longest lexeme is read -/

theorem Symbol.mem_all (s : Symbol) : s ∈ Symbol.all := by
  cases s <;> decide

theorem Symbol.pairwise_all :
    Symbol.all.Pairwise fun first second => ¬ first.text.toList <+: second.text.toList := by
  decide

theorem length_lt_or_eq_of_prefix {α : Type} {first second : List α} (h : first <+: second) :
    first.length < second.length ∨ first = second := by
  rcases Nat.lt_or_eq_of_le h.length_le with hLt | hEq
  · exact .inl hLt
  · exact .inr (h.eq_of_length hEq)

/-- The symbols are tried in such an order that the longest one is found. -/
theorem atFront?_of_prefix {s : Symbol} {cs : List Char} (h : s.text.toList <+: cs) :
    ∃ found, Symbol.atFront? cs = some found ∧
      (s.text.toList.length < found.text.toList.length ∨ s = found) := by
  have hTried : (Symbol.atFront? cs).isSome = true :=
    List.find?_isSome.mpr ⟨s, s.mem_all, List.isPrefixOf_iff_prefix.mpr h⟩
  obtain ⟨found, hFound⟩ := Option.isSome_iff_exists.mp hTried
  refine ⟨found, hFound, ?_⟩
  obtain ⟨hPrefix, before, behind, hAll, hBefore⟩ := List.find?_eq_some_iff_append.mp hFound
  have hApart := Symbol.pairwise_all
  have hMem := s.mem_all
  rw [hAll] at hApart hMem
  rcases List.mem_append.mp hMem with hTooEarly | hLater
  · have hNot := hBefore s hTooEarly
    rw [List.isPrefixOf_iff_prefix.mpr h] at hNot
    cases hNot
  · rcases List.mem_cons.mp hLater with rfl | hBehind
    · exact .inr rfl
    · have hShorter := (List.pairwise_cons.mp (List.pairwise_append.mp hApart).2.1).1 s hBehind
      rcases List.prefix_or_prefix_of_prefix (List.isPrefixOf_iff_prefix.mp hPrefix) h with hFirst | hSecond
      · exact absurd hFirst hShorter
      · rcases length_lt_or_eq_of_prefix hSecond with hLt | hEq
        · exact .inl hLt
        · exact absurd (hEq ▸ List.prefix_rfl) hShorter

/-- What is read is longer than the slice, or it is the slice and says the same. -/
def Reading.Covers (reading : Reading) (content : Content) (slice : List Char) : Prop :=
  ∃ found longer after, reading = .lexeme found longer after ∧
    (slice.length < longer.length ∨ (slice = longer ∧ content = found))

theorem forall_bne_of_not_mem {c : Char} {text : List Char} (h : c ∉ text) : ∀ d ∈ text, (d != c) = true := by
  intro d hd
  rw [bne_iff_ne]
  rintro rfl
  exact h hd

theorem length_lt_or_eq_takeWhile {p : Char → Bool} {run : List Char} (h : ∀ c ∈ run, p c = true) (rest : List Char) :
    run.length < ((run ++ rest).takeWhile p).length ∨ run = (run ++ rest).takeWhile p := by
  rw [List.takeWhile_append_of_pos h]
  exact length_lt_or_eq_of_prefix (List.prefix_append ..)

section Covers

variable {c : Char} {cs slice rest : List Char} {content : Content}

theorem covers_word {w : String} (hWord : isWord w = true) (hSplit : w.toList ++ rest = c :: cs) :
    (Reading.ofChars c cs).Covers (.token (Reading.tokenOfWord w)) w.toList := by
  obtain ⟨d, ds, hList, hStart, hAll⟩ := isWordChars_iff.mp hWord
  obtain ⟨rfl, -⟩ : d = c ∧ ds ++ rest = cs := by simpa [hList] using hSplit
  rw [ofChars_of_isWordStart hStart, ← hSplit]
  refine ⟨_, _, _, rfl, ?_⟩
  rcases length_lt_or_eq_takeWhile hAll rest with hLonger | hSame
  · exact .inl hLonger
  · exact .inr ⟨hSame, by rw [← hSame, String.ofList_toList]⟩

theorem covers_escaped {w : String} (hWord : isWord w = true) (rest : List Char) :
    (Reading.escaped (w.toList ++ rest)).Covers (.token (.name w)) ('^' :: w.toList) := by
  obtain ⟨d, ds, hList, hStart, hAll⟩ := isWordChars_iff.mp hWord
  have hRun : isWordChars ((w.toList ++ rest).takeWhile isWordChar) = true := by
    rw [List.takeWhile_append_of_pos hAll, hList, List.cons_append, isWordChars, hStart, Bool.true_and,
      List.all_append, List.all_takeWhile, Bool.and_true]
    exact List.all_eq_true.mpr fun e he => hAll e (hList ▸ List.mem_cons_of_mem d he)
  refine ⟨_, _, _, by rw [Reading.escaped, spanWord]; exact if_pos hRun, ?_⟩
  rcases length_lt_or_eq_takeWhile hAll rest with hLonger | hSame
  · exact .inl (Nat.succ_lt_succ hLonger)
  · exact .inr ⟨congrArg _ hSame, by rw [← hSame, String.ofList_toList]⟩

theorem covers_symbol {s : Symbol} (hSplit : s.text.toList ++ rest = c :: cs) :
    (Reading.ofChars c cs).Covers (.token (.symbol s)) s.text.toList := by
  obtain ⟨d, ds, hList, hSlash, hQuote, hCaret, hStart⟩ := head_symbol s
  obtain ⟨rfl, -⟩ : d = c ∧ ds ++ rest = cs := by simpa [hList] using hSplit
  obtain ⟨found, hFound, hLonger⟩ := atFront?_of_prefix (hSplit ▸ List.prefix_append s.text.toList rest)
  have hReading : Reading.ofChars d cs = Reading.plain d cs := by
    simp [Reading.ofChars, hSlash, hQuote, hCaret, hStart]
  refine ⟨_, _, _, by rw [hReading, Reading.plain, hFound], ?_⟩
  rcases hLonger with hLt | rfl
  · exact .inl hLt
  · exact .inr ⟨rfl, rfl⟩

theorem covers_lineComment {text : List Char} (h : '\n' ∉ text) (rest : List Char) :
    (Reading.lineComment (text ++ rest)).Covers (.trivia (.lineComment (String.ofList text))) ('/' :: '/' :: text) := by
  refine ⟨_, _, _, rfl, ?_⟩
  rcases length_lt_or_eq_takeWhile (forall_bne_of_not_mem h) rest with hLonger | hSame
  · exact .inl (Nat.succ_lt_succ (Nat.succ_lt_succ hLonger))
  · exact .inr ⟨congrArg (fun run => '/' :: '/' :: run) hSame, by rw [← hSame]⟩

theorem covers_blank {run : List Char} (h : ∀ d ∈ run, Reading.isInnerBlank d = true) (hRun : run ≠ [])
    (hSplit : run ++ rest = c :: cs) : (Reading.ofChars c cs).Covers (.trivia .blank) run := by
  obtain ⟨d, ds, rfl⟩ := List.exists_cons_of_ne_nil hRun
  obtain ⟨rfl, rfl⟩ := List.cons.inj hSplit
  obtain ⟨hFirst, hOthers⟩ := List.forall_mem_cons.mp h
  have hBoth : isBlank d = true ∧ d ≠ '\n' := by simpa [Reading.isInnerBlank] using hFirst
  refine ⟨_, _, _, ofChars_of_isBlank _ hBoth.1 hBoth.2, ?_⟩
  rcases length_lt_or_eq_takeWhile hOthers rest with hLonger | hSame
  · exact .inl (Nat.succ_lt_succ hLonger)
  · exact .inr ⟨congrArg _ hSame, rfl⟩

end Covers

/-- A slice that says something is not cut short. -/
theorem Content.DeterminedBy.covers {c : Char} {cs slice rest : List Char} {content : Content}
    (h : content.DeterminedBy slice) (hSplit : slice ++ rest = c :: cs) :
    (Reading.ofChars c cs).Covers content slice := by
  cases h with
  | keyword k =>
    rw [← tokenOfWord_text k]
    exact covers_word (isWord_text k) hSplit
  | name hWord hOther =>
    rw [← tokenOfWord_of_not_mem hOther]
    exact covers_word hWord hSplit
  | escaped hWord =>
    obtain ⟨rfl, rfl⟩ := List.cons.inj hSplit
    rw [ofChars_caret]
    exact covers_escaped hWord rest
  | @string body value hMeans =>
    obtain ⟨rfl, rfl⟩ := List.cons.inj hSplit
    have hBody := hMeans.readBody rest
    refine ⟨_, _, rest, ?_, .inr ⟨rfl, rfl⟩⟩
    change Reading.ofChars '"' (body ++ ['"'] ++ rest) = _
    rw [ofChars_quote, Reading.quoted, List.append_assoc, List.singleton_append, hBody]
  | symbol s => exact covers_symbol hSplit
  | @lineComment text hText =>
    obtain ⟨rfl, rfl⟩ := List.cons.inj hSplit
    change (Reading.ofChars '/' ('/' :: (text ++ rest))).Covers _ _
    rw [ofChars_slashes]
    exact covers_lineComment hText rest
  | @blockComment text hText =>
    obtain ⟨rfl, rfl⟩ := List.cons.inj hSplit
    have hClose := Reading.splitAtClose?_of_not_infix hText rest
    refine ⟨_, _, rest, ?_, .inr ⟨rfl, rfl⟩⟩
    change Reading.ofChars '/' ('*' :: (text ++ ['*', '/'] ++ rest)) = _
    rw [ofChars_slashStar, Reading.blockComment, List.append_assoc]
    simp only [List.cons_append, List.nil_append, hClose]
  | newline =>
    obtain ⟨rfl, rfl⟩ := List.cons.inj hSplit
    exact ⟨_, _, _, ofChars_newline rest, .inr ⟨rfl, rfl⟩⟩
  | blank hRun hBlank => exact covers_blank hBlank hRun hSplit

/-- A lexeme is read at the front of a text just where it is the longest one there. -/
theorem ofChars_eq_lexeme_iff {c : Char} {cs slice rest : List Char} {content : Content} :
    Reading.ofChars c cs = .lexeme content slice rest ↔ slice ++ rest = c :: cs ∧ content.Longest slice rest := by
  constructor
  · intro h
    have hSplit := Reading.append_of_ofChars h
    refine ⟨hSplit, Reading.determinedBy_of_ofChars h, fun hOther hPrefix => ?_⟩
    obtain ⟨others, hOthers⟩ := hPrefix
    obtain ⟨found, longer, after, hFound, hLonger⟩ := hOther.covers (hOthers.trans hSplit)
    cases h.symm.trans hFound
    exact hLonger
  · rintro ⟨hSplit, hLongest⟩
    obtain ⟨found, longer, after, hFound, hLonger⟩ := hLongest.determined.covers hSplit
    have hWhole : longer ++ after = slice ++ rest := (Reading.append_of_ofChars hFound).trans hSplit.symm
    rcases hLongest.longest (Reading.determinedBy_of_ofChars hFound) ⟨after, hWhole⟩ with hShorter | ⟨rfl, rfl⟩
    · rcases hLonger with hLt | ⟨rfl, -⟩
      · omega
      · omega
    · rw [hFound, List.append_cancel_left hWhole]

/-! ## Where a lexeme ends -/

theorem isWord_concat {w : String} (hWord : isWord w = true) {c : Char} (hc : isWordChar c = true) :
    isWord (String.ofList (w.toList ++ [c])) = true := by
  obtain ⟨d, ds, hList, hStart, hAll⟩ := isWordChars_iff.mp hWord
  rw [isWord, String.toList_ofList, isWordChars_iff]
  refine ⟨d, ds ++ [c], by rw [hList, List.cons_append], hStart, List.forall_mem_append.mpr ⟨hAll, ?_⟩⟩
  exact List.forall_mem_singleton.mpr hc

namespace Content.Longest

variable {content : Content} {slice rest : List Char}

theorem endsWord_of_grows (h : content.Longest slice rest)
    (hGrows : ∀ c, isWordChar c = true → ∃ other : Content, other.DeterminedBy (slice ++ [c])) : EndsWord rest := by
  intro c hHead
  obtain ⟨others, rfl⟩ := List.head?_eq_some_iff.mp hHead
  cases hWord : isWordChar c with
  | false => rfl
  | true =>
    obtain ⟨other, hOther⟩ := hGrows c hWord
    have hFront : slice ++ [c] <+: slice ++ c :: others := ⟨others, by simp⟩
    have hLength : (slice ++ [c]).length = slice.length + 1 := List.length_append
    rcases h.longest hOther hFront with hShorter | ⟨hSame, -⟩
    · omega
    · rw [hSame] at hLength
      omega

/-- A word takes in all word characters that follow it, and so does a word behind a caret. -/
theorem endsWord_of_word {w : String} (hWord : isWord w = true) (h : content.Longest w.toList rest) : EndsWord rest :=
  h.endsWord_of_grows fun c hc =>
    ⟨_, by simpa only [String.toList_ofList] using determinedBy_tokenOfWord (isWord_concat hWord hc)⟩

theorem endsWord_of_escaped {w : String} (hWord : isWord w = true) (h : content.Longest ('^' :: w.toList) rest) :
    EndsWord rest :=
  h.endsWord_of_grows fun c hc =>
    ⟨_, by simpa only [String.toList_ofList, List.cons_append] using DeterminedBy.escaped (isWord_concat hWord hc)⟩

/-- No arrow is split. -/
theorem ends_of_symbol {s : Symbol} (h : content.Longest s.text.toList rest) : s.Ends rest := by
  have hLonger (other : Symbol) (hLength : s.text.toList.length < other.text.toList.length) :
      ¬ other.text.toList <+: s.text.toList ++ rest := by
    intro hPrefix
    rcases h.longest (.symbol other) hPrefix with hShorter | ⟨hSame, -⟩
    · omega
    · rw [hSame] at hLength
      omega
  cases s
  case dash =>
    intro hHead
    obtain ⟨others, rfl⟩ := List.head?_eq_some_iff.mp hHead
    exact hLonger .arrow (by decide) ⟨others, rfl⟩
  case leftArrow =>
    intro hHead
    obtain ⟨others, rfl⟩ := List.head?_eq_some_iff.mp hHead
    exact hLonger .doubleArrow (by decide) ⟨others, rfl⟩
  case lessThan =>
    intro hHead
    obtain ⟨others, rfl⟩ := List.head?_eq_some_iff.mp hHead
    exact hLonger .leftArrow (by decide) ⟨others, rfl⟩
  all_goals trivial

end Content.Longest

/-! ## Whole sources -/

theorem cutInto_of_lex {start : Nat} {cs : List Char} (h : (lex start cs).filterMap Piece.diagnostic? = []) :
    CutInto start cs ((lex start cs).filterMap Piece.lexeme?) := by
  fun_induction lex start cs with
  | case1 => exact .nil
  | case2 start c cs reading ih =>
    cases hReading : reading with
    | lexeme content slice rest =>
      rw [hReading] at h ih
      obtain ⟨hSplit, hLongest⟩ := ofChars_eq_lexeme_iff.mp hReading
      rw [← hSplit]
      exact .cons hLongest (ih h)
    | fault kind lead culprit skipped rest =>
      rw [hReading] at h
      cases h

theorem lex_of_cutInto {start : Nat} {cs : List Char} {lexemes : List Lexeme} (h : CutInto start cs lexemes) :
    (lex start cs).filterMap Piece.diagnostic? = [] ∧ (lex start cs).filterMap Piece.lexeme? = lexemes := by
  induction h with
  | nil =>
    rw [lex]
    exact ⟨rfl, rfl⟩
  | @cons start content slice rest lexemes hFirst _ ih =>
    obtain ⟨c, cs, hSplit⟩ := List.exists_cons_of_ne_nil hFirst.determined.ne_nil
    have hReading : Reading.ofChars c (cs ++ rest) = .lexeme content slice rest :=
      ofChars_eq_lexeme_iff.mpr ⟨by rw [hSplit, List.cons_append], hFirst⟩
    rw [hSplit, List.cons_append, lex, hReading, ← hSplit]
    exact ⟨ih.1, congrArg _ ih.2⟩

theorem CutInto.consecutive {start : Nat} {cs : List Char} {lexemes : List Lexeme} (h : CutInto start cs lexemes) :
    Consecutive start (start + byteLength cs) (lexemes.map (·.span)) := by
  induction h with
  | nil => exact .nil
  | @cons start content slice rest lexemes hFirst _ ih =>
    have hStop : (Span.ofBounds start (start + byteLength slice)).stop = start + byteLength slice :=
      Nat.max_eq_left (Nat.le_add_right ..)
    have hLength := byteLength_pos hFirst.determined.ne_nil
    rw [byteLength_append, ← Nat.add_assoc, List.map_cons]
    refine @Consecutive.cons _ (.ofBounds start (start + byteLength slice)) _ ?_ ?_
    · rw [hStop]
      exact Nat.lt_add_of_pos_right hLength
    · rw [hStop]
      exact ih

/-- The lexemes of a source are those into which it is cut, and their spans cover it from its first byte to its last. -/
theorem lexemesOf_eq_ok_iff_cutInto (source : String) (lexemes : List Lexeme) :
    lexemesOf source = .ok lexemes ↔
      CutInto 0 source.toList lexemes ∧ Consecutive 0 source.utf8ByteSize (lexemes.map (·.span)) := by
  rw [lexemesOf_eq_ok_iff]
  constructor
  · rintro ⟨hNone, rfl⟩
    have hCut := cutInto_of_lex hNone
    have hSize : source.utf8ByteSize = byteLength source.toList := by
      rw [← utf8ByteSize_ofList, String.ofList_toList]
    have hSpans := hCut.consecutive
    rw [Nat.zero_add, ← hSize] at hSpans
    exact ⟨hCut, hSpans⟩
  · rintro ⟨hCut, -⟩
    exact lex_of_cutInto hCut

end DomainAtlas
