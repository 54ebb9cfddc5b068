import DomainAtlas.Diagnostic
import DomainAtlas.Grammar.Maps
/-!
# Documents

A document is a list of declarations. Each one that cannot be read yields one diagnostic; reading then
goes on at the next keyword that opens a declaration. A document with more than one context map is
refused too.
-/
set_option autoImplicit false

namespace DomainAtlas

open Grammar

variable {ι : Type}

structure Attempt (ι : Type) where
  start : List ι
  result : Except (Mismatch ι) Declaration

/-- The place where `rest` begins, or just after the first item of `first :: others` if that is
later: every try takes an item. -/
def progress (others rest : List ι) : List ι :=
  if rest.length ≤ others.length then rest else others

theorem length_progress_le (others rest : List ι) :
    (progress others rest).length ≤ others.length := by
  unfold progress
  split
  · assumption
  · exact Nat.le_refl _

theorem progress_suffix {item : ι} {others rest : List ι} (h : rest <:+ item :: others) :
    progress others rest <:+ others := by
  unfold progress
  split
  · rename_i hShort
    rcases List.suffix_cons_iff.mp h with rfl | hOthers
    · exact absurd hShort (Nat.not_succ_le_self _)
    · exact hOthers
  · exact List.suffix_refl others

def opensDeclaration (t : Token) : Bool :=
  t == .keyword .contextMap || t == .keyword .boundedContext

section

variable [Readable ι]

/-- The place where reading goes on after a mismatch. -/
def recover (others : List ι) (mismatch : Mismatch ι) : List ι :=
  (progress others mismatch.rest).dropWhile fun item => !(Readable.token? item).any opensDeclaration

theorem length_recover_le (others : List ι) (mismatch : Mismatch ι) :
    (recover others mismatch).length ≤ others.length :=
  Nat.le_trans (List.dropWhile_sublist _).length_le (length_progress_le others mismatch.rest)

/-- A try at each declaration; trivia before it is passed over. -/
def attempts : List ι → List (Attempt ι)
  | [] => []
  | item :: others =>
    if (Readable.token? item).isNone then attempts others
    else
      match declaration (item :: others) with
      | .accepted value rest => ⟨item :: others, .ok value⟩ :: attempts (progress others rest)
      | .declined mismatch => ⟨item :: others, .error mismatch⟩ :: attempts (recover others mismatch)
      | .refused mismatch => ⟨item :: others, .error mismatch⟩ :: attempts (recover others mismatch)
termination_by items => items.length
decreasing_by
  · exact Nat.lt_succ_self others.length
  · exact Nat.lt_succ_of_le (length_progress_le others rest)
  · exact Nat.lt_succ_of_le (length_recover_le others mismatch)
  · exact Nat.lt_succ_of_le (length_recover_le others mismatch)

end

def placedRest (items : List (Placed ι)) (rest : List ι) : List (Placed ι) :=
  items.drop (items.length - rest.length)

variable [Readable ι]

/-- The end of the last token. -/
def endSpan (items : List (Placed ι)) : Span :=
  match (tokensOf items).getLast? with
  | some last => .emptyAt last.span.stop
  | none => .emptyAt 0

namespace Grammar.Mismatch

def expectation : List Expected → String
  | [] => "unexpected token"
  | innermost :: _ => "expected " ++ innermost.text

/-- The construct whose reading failed, when it is named apart from what was expected. -/
def surroundings? : List Expected → Option String
  | [] => none
  | [_] => none
  | _ :: outer :: others => some ("while parsing " ++ ((outer :: others).getLastD outer).text)

/-- The diagnostic for a mismatch in `items`. It lies at the first token of what was left. -/
def diagnostic (items : List (Placed ι)) (mismatch : Mismatch ι) : Diagnostic :=
  let offending? := (tokensOf (placedRest items mismatch.rest)).head?
  match mismatch.complaint with
  | .nestedCollection =>
    { severity := .error
      code := some .nestedCollection
      message := "nested generic types are not supported"
      labels := [⟨(offending?.map (·.span)).getD (endSpan items),
        ErrorCode.nestedCollection.description, true⟩]
      help := some "introduce a value object that holds the inner collection" }
  | .unexpected expected =>
    match offending? with
    | some found =>
      { severity := .error
        code := some .unexpectedToken
        message := "unexpected token `" ++ found.value.text ++ "`"
        labels := [⟨found.span, expectation expected, true⟩]
        help := surroundings? expected }
    | none =>
      { severity := .error
        code := some .incompleteInput
        message := "unexpected end of input"
        labels := [⟨endSpan items, expectation expected, true⟩]
        help := surroundings? expected }

end Grammar.Mismatch

/-- The span of a declaration's keyword and of its name if it has one. -/
def headerSpan (items : List (Placed ι)) (start : List ι) (value : Declaration) : Span :=
  ((Span.unionAll? (((tokensOf (placedRest items start)).take value.headerLength).map (·.span)))).getD
    (endSpan items)

namespace Attempt

def diagnostic? (items : List (Placed ι)) (attempt : Attempt ι) : Option Diagnostic :=
  match attempt.result with
  | .ok _ => none
  | .error mismatch => some (mismatch.diagnostic items)

def declaration? (items : List (Placed ι)) (attempt : Attempt ι) : Option (Placed Declaration) :=
  match attempt.result with
  | .ok value => some ⟨value, headerSpan items attempt.start value⟩
  | .error _ => none

end Attempt

/-- The declarations that `items` consist of, each with the span of its header, or a diagnostic for
each of those that cannot be read. -/
def declarationsOf (items : List (Placed ι)) : Except ParseError (List (Placed Declaration)) :=
  let tries := attempts (items.map (·.value))
  match tries.filterMap (Attempt.diagnostic? items) with
  | [] => .ok (tries.filterMap (Attempt.declaration? items))
  | diagnostics => .error ⟨diagnostics⟩

def mapHeader? (placed : Placed Declaration) : Option Span :=
  match placed.value with
  | .contextMap _ => some placed.span
  | .boundedContext _ => none

def repeatedMap (first again : Span) : Diagnostic where
  severity := .error
  code := some .duplicateContextMap
  message := "a document may declare only one context map"
  labels := [⟨again, "second context map declared here", true⟩,
    ⟨first, "first context map declared here", false⟩]
  help := some "merge the relationships into the first `ContextMap` block"

/-- A diagnostic for every context map but the first. -/
def repeatedMaps (declarations : List (Placed Declaration)) : List Diagnostic :=
  match declarations.filterMap mapHeader? with
  | [] => []
  | first :: others => others.map (repeatedMap first)

def documentOf (items : List (Placed ι)) : Except ParseError (List Declaration) := do
  let declarations ← declarationsOf items
  match repeatedMaps declarations with
  | [] => return declarations.map (·.value)
  | diagnostics => throw ⟨diagnostics⟩

def typeRefOf (items : List (Placed ι)) : Except ParseError TypeRef :=
  match typeRef (items.map (·.value)) with
  | .accepted type rest =>
    match skipTrivia rest with
    | [] => .ok type
    | left => .error ⟨[Mismatch.diagnostic items ⟨.unexpected [.endOfType], left⟩]⟩
  | .declined mismatch => .error ⟨[mismatch.diagnostic items]⟩
  | .refused mismatch => .error ⟨[mismatch.diagnostic items]⟩

end DomainAtlas
