import DomainAtlas.Proofs.Grammar.Diagnostics
import DomainAtlas.Proofs.Grammar.StalledMaps

/-! # Documents that break off

The tokens at the beginning of a document are a document themselves or yield one diagnostic: that more tokens are
expected, unless a reader gives tokens back.
-/
set_option autoImplicit false

namespace DomainAtlas

open Grammar Grammar.Reader Grammar.Outcome

variable {α β : Type}

/-! ## What stalls opens no declaration -/

namespace Phrase

/-- No token of the phrase opens a declaration. -/
def Inner (phrase : Phrase α) : Prop :=
  ∀ tokens value, phrase tokens value → Interior tokens

section

variable {phrase other : Phrase α} {next : α → Phrase β}

theorem inner_of_local {reader : Reader Token α} {last : Token → Prop} (h : Local reader Interior)
    (hReads : Reads reader phrase last) : phrase.Inner :=
  fun _ _ => interior_of_phrase h hReads

theorem inner_pure (value : α) : (pure value : Phrase α).Inner := by
  rintro _ _ ⟨rfl, -⟩ t ht
  cases ht

theorem inner_never : (never : Phrase α).Inner :=
  fun _ _ => False.elim

theorem Inner.bind (h : phrase.Inner) (hNext : ∀ value, (next value).Inner) : (phrase >>= next).Inner := by
  rintro _ result ⟨front, back, value, rfl, hFront, hBack⟩ t ht
  exact (List.mem_append.mp ht).elim (h front value hFront t) (hNext value back result hBack t)

theorem Inner.or (h : phrase.Inner) (hOther : other.Inner) : (phrase <|> other).Inner :=
  fun tokens value hPhrase => hPhrase.elim (h tokens value) (hOther tokens value)

theorem Inner.many (h : phrase.Inner) : phrase.many.Inner := by
  intro tokens values hMany
  induction hMany with
  | nil => exact inner_pure () [] () ⟨rfl, rfl⟩
  | cons hFirst _ ih => exact fun t ht => (List.mem_append.mp ht).elim (h _ _ hFirst t) (ih t)

theorem Inner.optional (h : phrase.Inner) : phrase.optional.Inner := by
  intro tokens value? hPhrase
  cases hPhrase with
  | none => exact inner_pure () [] () ⟨rfl, rfl⟩
  | some hSome => exact h _ _ hSome

theorem Inner.orEmpty {phrase : Phrase (List α)} (h : phrase.Inner) : phrase.orEmpty.Inner :=
  h.optional.bind fun _ => inner_pure _

theorem inner_symbol (s : Symbol) : (symbol s).Inner :=
  inner_of_local (local_symbol s) (Item.toReads (item_symbol s))

theorem inner_keyword {k : Keyword} (h : opensDeclaration (.keyword k) = false) : (keyword k).Inner :=
  inner_of_local (local_keyword h) (Item.toReads (item_keyword k))

theorem inner_name : name.Inner :=
  inner_of_local local_name (Item.toReads item_name)

theorem Inner.openList {stall : Phrase Unit} (h : phrase.Inner) (hStall : stall.Inner) :
    (Phrase.openList phrase stall).Inner :=
  h.bind fun _ => ((inner_symbol .comma).bind fun _ => h).many.bind fun _ => (inner_symbol .comma).bind fun _ =>
    (inner_pure ()).or hStall

theorem Inner.openBlock {stall : Phrase Unit} (h : phrase.Inner) (hStall : stall.Inner) :
    (Phrase.openBlock phrase stall).Inner :=
  (inner_symbol .leftBrace).bind fun _ => h.many.bind fun _ => hStall

end

theorem inner_openMark : openMark.Inner := by
  have hKind : (keywordValue SymmetricKind.ofMark?).Inner :=
    inner_of_local (local_keywordValue .symmetricMark rfl rfl) (item_keywordValue .symmetricMark _).toReads
  have hMark : symmetricMark.Inner := inner_of_local local_symmetricMark (Item.toReads item_symmetricMark)
  exact Inner.or ((inner_symbol .leftBracket).bind fun _ => (inner_pure ()).or (hKind.bind fun _ => inner_pure ()))
    (hMark.bind fun _ => inner_pure ())

theorem inner_stalledTarget {roles : Phrase (List α)} (h : roles.Inner) : (stalledTarget roles).Inner := by
  have hItem : relationshipItem.Inner := inner_of_local local_relationshipItem (Item.toReads item_relationshipItem)
  have hExposure : stalledExposure.Inner :=
    (inner_keyword (by decide)).bind fun _ => (inner_symbol .equals).bind fun _ => Inner.openList inner_name inner_never
  exact (inner_symbol .leftBracket).or (h.orEmpty.bind fun _ => Inner.bind inner_name fun _ =>
    hItem.openBlock ((inner_pure ()).or hExposure))

theorem inner_openDirected {roles : Phrase (List α)} {stall : Phrase Unit} (h : roles.Inner) (mark : Symbol)
    (hStall : stall.Inner) : (openDirected roles mark stall).Inner :=
  (inner_symbol .leftBracket).or <| (h.bind fun _ => inner_pure ()).or <|
    h.orEmpty.bind fun _ => (inner_symbol mark).bind fun _ => hStall

theorem inner_stalledMapItem : stalledMapItem.Inner := by
  have hUp : upstreamRoles.Inner := inner_of_local local_upstreamRoles (Item.toReads item_upstreamRoles)
  have hDown : downstreamRoles.Inner := inner_of_local local_downstreamRoles (Item.toReads item_downstreamRoles)
  have hContained : stalledContained.Inner :=
    (inner_keyword (by decide)).bind fun _ => Inner.openList inner_name inner_never
  have hTail := Inner.or inner_openMark ((inner_openDirected hUp .arrow (inner_stalledTarget hDown)).or
    (inner_openDirected hDown .leftArrow (inner_stalledTarget hUp)))
  exact hContained.or (Inner.bind inner_name fun _ => (inner_pure ()).or hTail)

theorem inner_contextBody (make : String → List ContextItem → β) :
    (name >>= fun name => make name <$> block contextItem).Inner := by
  have hItem : contextItem.Inner := inner_of_local local_contextItem (Item.toReads item_contextItem)
  exact Inner.bind inner_name fun name => ((inner_symbol .leftBrace).bind fun _ => hItem.many.bind fun _ =>
    (inner_symbol .rightBrace).bind fun _ => inner_pure _).bind fun _ => inner_pure _

end Phrase

/-! ## One declaration -/

theorem rest_bind_suffix {reader : Reader Token α} {next : α → Reader Token β}
    (h : ∀ value tokens, (next value tokens).rest <:+ tokens) (tokens : List Token) :
    ((reader >>= next) tokens).rest <:+ (reader tokens).rest := by
  simp only [Bind.bind]
  cases reader tokens with
  | accepted value rest => exact h value rest
  | declined mismatch | refused mismatch => exact List.suffix_rfl

theorem rest_map_suffix (reader : Reader Token α) (f : α → β) (tokens : List Token) :
    ((f <$> reader) tokens).rest <:+ (reader tokens).rest :=
  rest_bind_suffix (fun _ _ => List.suffix_rfl) tokens

/-- Items in front of one that stalls are left out. -/
theorem rest_mapItems_suffix {items last : List Token} {values : List MapItem}
    (hItems : Phrase.many Phrase.mapItem items values) (hLast : Phrase.stalledMapItem last ()) :
    (many Grammar.mapItem (items ++ last)).rest <:+ last := by
  have hApart : ∀ t, startsMapItem t → ¬ prolongsItem t := by simp [startsMapItem, prolongsItem, isName]
  have hClear := clear_of_head (TruncatedItem.stalls truncated_mapItem hLast).1 hApart
  rw [TruncatedItem.many_append item_mapItem hApart hItems hClear]
  exact (rest_map_suffix _ _ last).trans ((Local.manyFree local_mapItem (Item.toReads item_mapItem)).suffix last)

/-- A map that stalls leaves tokens of its last item. -/
theorem interior_of_stalledMap {tokens : List Token}
    (h : (Phrase.optional Phrase.name >>= fun _ => Phrase.openBlock Phrase.mapItem Phrase.stalledMapItem) tokens ()) :
    Interior (Grammar.mapBody tokens).rest := by
  obtain ⟨named, _, name, rfl, hName, _, _, _, rfl, hBrace, items, last, values, rfl, hItems, hLast⟩ := h
  rw [Phrase.symbol_iff.mp hBrace, List.singleton_append]
  have hClear : Clear (fun t => isName t ∨ noToken t) (.symbol .leftBrace :: (items ++ last)) :=
    clear_cons.mpr (by simp [isName, noToken])
  rw [Grammar.mapBody, bind_eq_of_accepted ((Item.optional item_name).complete hName hClear)]
  have hBlock : (Grammar.block Grammar.mapItem (.symbol .leftBrace :: (items ++ last))).rest <:+ last := by
    rw [block_cons, blockItems]
    refine (rest_bind_suffix (fun _ rest => ?_) _).trans (rest_mapItems_suffix hItems hLast)
    exact (rest_map_suffix _ _ rest).trans ((local_symbol .rightBrace).suffix rest)
  exact (Phrase.inner_stalledMapItem last () hLast).suffix ((rest_map_suffix _ _ _).trans hBlock)

theorem recover_of_interior {others : List Token} {mismatch : Mismatch Token} (hRest : mismatch.rest <:+ others)
    (hInterior : Interior mismatch.rest) : recover others mismatch = [] := by
  rw [recover_tokens, progress, if_pos hRest.length_le, List.dropWhile_eq_nil_iff]
  intro t ht
  simp [hInterior t ht]

theorem declaration_eq_contextMap (tokens : List Token) : Grammar.declaration (.keyword .contextMap :: tokens) =
    (Declaration.contextMap <$> Reader.expecting .contextMap (commit Grammar.mapBody)) tokens :=
  congrFun declaration_contextMap tokens

theorem declaration_eq_boundedContext (tokens : List Token) :
    Grammar.declaration (.keyword .boundedContext :: tokens) =
      (Declaration.boundedContext <$> Reader.expecting .boundedContext (commit Grammar.contextBody)) tokens :=
  congrFun declaration_boundedContext tokens

theorem not_declined_declaration {t : Token} {others : List Token} (h : opensDeclaration t = true) :
    ¬ (Grammar.declaration (t :: others)).Declined := by
  rcases opensDeclaration_iff.mp h with rfl | rfl
  · rw [declaration_eq_contextMap]
    exact ((firm_commit _).expecting _).map _ others
  · rw [declaration_eq_boundedContext]
    exact ((firm_commit _).expecting _).map _ others

theorem rest_expecting (expected : Expected) (reader : Reader Token α) (tokens : List Token) :
    (Reader.expecting expected reader tokens).rest = (reader tokens).rest := by
  unfold Reader.expecting
  cases reader tokens with
  | accepted value rest => rfl
  | declined mismatch | refused mismatch => exact Reader.rest_mark expected mismatch

theorem rest_commit (reader : Reader Token α) (tokens : List Token) : (commit reader tokens).rest = (reader tokens).rest := by
  unfold commit
  cases reader tokens <;> rfl

/-- The tokens that a stalled declaration leaves open no other one. -/
theorem interior_of_stalledDeclaration {front back : List Token} {value : Declaration}
    (h : Phrase.declaration (front ++ back) value) (hStall : Phrase.stalledDeclaration front ()) :
    Interior (Grammar.declaration front).rest := by
  rcases hStall with hMap | hContext
  · obtain ⟨_, body, _, rfl, hKeyword, hBody⟩ := hMap
    rw [Phrase.keyword_iff.mp hKeyword, List.singleton_append, declaration_eq_contextMap]
    have hRest := rest_map_suffix (Reader.expecting .contextMap (commit Grammar.mapBody)) Declaration.contextMap body
    rw [rest_expecting, rest_commit] at hRest
    exact (interior_of_stalledMap hBody).suffix hRest
  · obtain ⟨_, body, _, rfl, hKeyword, -⟩ := hContext
    rw [Phrase.keyword_iff.mp hKeyword, List.singleton_append] at h ⊢
    have hBody : Interior (body ++ back) := by
      rcases h with h | h
      · obtain ⟨decl, ⟨_, _, _, hTokens, hOther, -⟩, -⟩ := Phrase.map_iff.mp h
        rw [Phrase.keyword_iff.mp hOther] at hTokens
        cases hTokens
      · obtain ⟨decl, ⟨_, rest, _, hTokens, hSame, hRest⟩, -⟩ := Phrase.map_iff.mp h
        rw [Phrase.keyword_iff.mp hSame, List.singleton_append, List.cons_append] at hTokens
        rw [(List.cons.inj hTokens).2]
        exact Phrase.inner_contextBody (fun name items => ({ name, items } : ContextDecl)) rest decl hRest
    have hFront : Interior body := fun t ht => hBody t (List.mem_append_left back ht)
    exact hFront.suffix ((local_declaration (by decide)).suffix body)

/-- A mismatch after which nothing is tried again. -/
theorem faults_of_refused {t : Token} {others : List Token} {mismatch : Mismatch Token}
    (h : Grammar.declaration (t :: others) = .refused mismatch) (hRest : mismatch.rest <:+ others)
    (hInterior : Interior mismatch.rest) : faults (t :: others) = [mismatch] := by
  rw [faults, attempts_of_mismatch (congrArg Outcome.mismatch? h), recover_of_interior hRest hInterior, attempts]
  rfl

/-- What breaks off yields one mismatch, and stalling decides which. -/
def Phrase.BreaksOff (stall : Phrase Unit) (front : List Token) : Prop :=
  ∃ mismatch, faults front = [mismatch] ∧ mismatch.rest <:+ front ∧
    (stall front () ∧ mismatch.Misplaced ∨ ¬ stall front () ∧ mismatch.RanOut)

theorem breaksOff_of_declaration {front back : List Token} {value : Declaration}
    (h : Phrase.declaration (front ++ back) value) (hSome : front ≠ [])
    (hBad : ∀ value, ¬ Phrase.declaration front value) : Phrase.stalledDeclaration.BreaksOff front := by
  obtain ⟨t, others, rfl⟩ := List.exists_cons_of_ne_nil hSome
  have hOpens : opensDeclaration t = true := by
    obtain ⟨u, tail, hTokens, hFirst⟩ := Item.begins item_declaration _ value h
    rw [opensDeclaration_iff, (List.cons.inj hTokens).1]
    exact hFirst
  have hSuffix : (Grammar.declaration (t :: others)).rest <:+ others := (local_declaration hOpens).suffix others
  have hKeeps : ¬ (Grammar.declaration (t :: others)).Declined := not_declined_declaration hOpens
  by_cases hStall : Phrase.stalledDeclaration (t :: others) ()
  · have hInterior := interior_of_stalledDeclaration h hStall
    have hStalled := (TruncatedItem.stalls truncated_declaration hStall).2.resolve_left hKeeps
    cases hOutcome : Grammar.declaration (t :: others) with
    | accepted found rest =>
      rw [hOutcome] at hStalled
      exact absurd hStalled not_head_noToken
    | declined mismatch =>
      rw [hOutcome] at hKeeps
      exact absurd trivial hKeeps
    | refused mismatch =>
      rw [hOutcome] at hStalled hSuffix hInterior
      exact ⟨mismatch, faults_of_refused hOutcome hSuffix hInterior, hSuffix.trans (List.suffix_cons t others),
        .inl ⟨hStall, hStalled⟩⟩
  · rcases TruncatedItem.accepted_or_refused truncated_declaration (Item.toReads item_declaration) h hSome hStall with
      ⟨found, hFound, -⟩ | ⟨mismatch, hRefused, hEnd⟩
    · exact absurd hFound (hBad found)
    · rw [hRefused] at hSuffix
      have hInterior : Interior mismatch.rest := by
        rw [hEnd.1]
        exact fun _ hNone => nomatch hNone
      exact ⟨mismatch, faults_of_refused hRefused hSuffix hInterior, hSuffix.trans (List.suffix_cons t others),
        .inr ⟨hStall, hEnd⟩⟩

/-! ## Documents -/

namespace Phrase

/-- The beginnings of a document that are given back at some point. -/
def stalledDocument : Phrase Unit := do
  let _ ← document
  stalledDeclaration

end Phrase

theorem declaration_append {front back : List Token} {value : Declaration} (h : Phrase.declaration front value) :
    Grammar.declaration (front ++ back) = .accepted value back :=
  (Item.toReads item_declaration).complete h (clear_noToken back)

theorem not_stalled_of_declaration {front back : List Token} {value : Declaration}
    (h : Phrase.declaration front value) : ¬ Phrase.stalledDeclaration (front ++ back) () := by
  intro hStall
  have hOutcome := (TruncatedItem.stalls truncated_declaration hStall).2
  rw [declaration_append h] at hOutcome
  exact not_head_noToken (hOutcome.resolve_left id)

/-- Whole declarations in front do not matter. -/
theorem stalledDocument_append {front back : List Token} {value : Declaration} (h : Phrase.declaration front value) :
    Phrase.stalledDocument (front ++ back) () ↔ Phrase.stalledDocument back () := by
  constructor
  · rintro ⟨whole, last, values, hTokens, hWhole, hStall⟩
    cases hWhole with
    | nil =>
      rw [List.nil_append] at hTokens
      exact absurd (hTokens ▸ hStall) (not_stalled_of_declaration h)
    | @cons first others value' values hFirst hOthers =>
      -- both first declarations are read from the same tokens
      have hRead : Grammar.declaration (front ++ back) = .accepted value' (others ++ last) := by
        rw [hTokens, List.append_assoc]
        exact declaration_append hFirst
      rw [declaration_append h] at hRead
      rw [(Outcome.accepted.inj hRead).2]
      exact ⟨others, last, values, rfl, hOthers, hStall⟩
  · rintro ⟨whole, last, values, rfl, hWhole, hStall⟩
    exact ⟨front ++ whole, last, value :: values, (List.append_assoc ..).symm, .cons h hWhole, hStall⟩

/-- Before the end of the first declaration the document stalls as the declaration does. -/
theorem stalledDocument_iff {front back : List Token} {value : Declaration}
    (h : Phrase.declaration (front ++ back) value) (hBad : ∀ value, ¬ Phrase.declaration front value) :
    Phrase.stalledDocument front () ↔ Phrase.stalledDeclaration front () := by
  refine ⟨?_, fun hStall => ⟨[], front, [], rfl, .nil, hStall⟩⟩
  rintro ⟨whole, last, values, rfl, hWhole, hStall⟩
  cases hWhole with
  | nil => exact hStall
  | @cons first others value' values hFirst hOthers =>
    have hWhole : Grammar.declaration (first ++ (others ++ last ++ back)) = .accepted value [] := by
      rw [← List.append_nil (first ++ _), ← List.append_assoc first, ← List.append_assoc first]
      exact declaration_append h
    rw [declaration_append hFirst] at hWhole
    obtain ⟨hRest, -⟩ := List.append_eq_nil_iff.mp (Outcome.accepted.inj hWhole).2
    obtain ⟨rfl, rfl⟩ := List.append_eq_nil_iff.mp hRest
    simp only [List.append_nil] at hBad
    exact absurd hFirst (hBad value')

theorem breaksOff_of_document {front back tokens : List Token} {tree : List Declaration}
    (h : Phrase.document tokens tree) (hTokens : front ++ back = tokens) (hBad : ∀ tree, ¬ Phrase.document front tree) :
    Phrase.stalledDocument.BreaksOff front := by
  induction h generalizing front back with
  | nil =>
    rw [(List.append_eq_nil_iff.mp hTokens).1] at hBad
    exact absurd .nil (hBad [])
  | @cons first others value values hFirst hOthers ih =>
    have hAlone : ∀ value, ¬ Phrase.declaration front value := fun value hValue => by
      have hDocument := Phrase.many.cons hValue .nil
      rw [List.append_nil] at hDocument
      exact hBad [value] hDocument
    rcases List.append_eq_append_iff.mp hTokens with ⟨between, rfl, -⟩ | ⟨between, rfl, hBetween⟩
    · have hSome : front ≠ [] := by
        rintro rfl
        exact hBad [] .nil
      obtain ⟨mismatch, hFaults, hRest, hKind⟩ := breaksOff_of_declaration hFirst hSome hAlone
      rw [← stalledDocument_iff hFirst hAlone] at hKind
      exact ⟨mismatch, hFaults, hRest, hKind⟩
    · obtain ⟨mismatch, hFaults, hRest, hKind⟩ := ih hBetween.symm fun tree hTree =>
        hBad (value :: tree) (.cons hFirst hTree)
      rw [← stalledDocument_append hFirst] at hKind
      refine ⟨mismatch, ?_, hRest.trans (List.suffix_append first between), hKind⟩
      rw [← hFaults, faults, attempts_append_of_declaration hFirst, List.filterMap_cons_none rfl, faults]

end DomainAtlas
