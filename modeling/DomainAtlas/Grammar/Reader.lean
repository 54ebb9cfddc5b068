import DomainAtlas.Grammar.Expected
/-!
# Readers

A reader takes a value from the front of a list of items. When it cannot, it either declines, so that
something else may be tried at the same place, or it refuses, which ends the declaration. A reader
refuses once it has seen what decides that nothing else can be meant (`commit`).

The items are tokens with trivia between them. Each reader of a single token passes over the trivia before
it; what is left, and what is returned to when another way is tried, are items. Where a mismatch lies is
told by the items that were left.
-/
set_option autoImplicit false

namespace DomainAtlas.Grammar

inductive Complaint
  /-- What would have been accepted, the innermost first. -/
  | unexpected (expected : List Expected)
  /-- A collection of collections. -/
  | nestedCollection
  deriving DecidableEq, Repr

structure Mismatch (ι : Type) where
  complaint : Complaint
  /-- The items from the offending token on. -/
  rest : List ι
  deriving DecidableEq, Repr

inductive Outcome (ι α : Type)
  | accepted (value : α) (rest : List ι)
  | declined (mismatch : Mismatch ι)
  | refused (mismatch : Mismatch ι)
  deriving DecidableEq, Repr

def Reader (ι α : Type) :=
  List ι → Outcome ι α

namespace Reader

variable {ι α β : Type}

instance : Monad (Reader ι) where
  pure value items := .accepted value items
  bind reader next items :=
    match reader items with
    | .accepted value rest => next value rest
    | .declined mismatch => .declined mismatch
    | .refused mismatch => .refused mismatch

/-- Tries `second` at the same place when `first` declines. -/
def orElse (first : Reader ι α) (second : Unit → Reader ι α) : Reader ι α := fun items =>
  match first items with
  | .declined _ => second () items
  | outcome => outcome

instance : OrElse (Reader ι α) := ⟨orElse⟩

def decline : Reader ι α := fun items =>
  .declined ⟨.unexpected [], items⟩

/-- Refuses where `reader` would decline. -/
def commit (reader : Reader ι α) : Reader ι α := fun items =>
  match reader items with
  | .declined mismatch => .refused mismatch
  | outcome => outcome

/-- Names what `reader` reads in its mismatches, outside of what they name already. -/
def expecting (expected : Expected) (reader : Reader ι α) : Reader ι α := fun items =>
  match reader items with
  | .accepted value rest => .accepted value rest
  | .declined mismatch => .declined (mark mismatch)
  | .refused mismatch => .refused (mark mismatch)
where
  mark (mismatch : Mismatch ι) : Mismatch ι :=
    match mismatch.complaint with
    | .unexpected inner => ⟨.unexpected (inner ++ [expected]), mismatch.rest⟩
    | .nestedCollection => mismatch

theorem rest_mark (expected : Expected) (mismatch : Mismatch ι) :
    (expecting.mark expected mismatch).rest = mismatch.rest := by
  obtain ⟨complaint, rest⟩ := mismatch
  cases complaint <;> rfl

/-- Declines at the start when the value fails `test`. -/
def satisfying (test : α → Bool) (reader : Reader ι α) : Reader ι α := fun items =>
  match reader items with
  | .accepted value rest => if test value then .accepted value rest else decline items
  | outcome => outcome

/-- The next token, with the trivia before it, when `value?` makes something of it. -/
def token [Readable ι] (expected : Expected) (value? : Token → Option α) : Reader ι α := fun items =>
  match skipTrivia items with
  | [] => .declined ⟨.unexpected [expected], []⟩
  | item :: rest =>
    match (Readable.token? item).bind value? with
    | some value => .accepted value rest
    | none => .declined ⟨.unexpected [expected], item :: rest⟩

def optional (reader : Reader ι α) : Reader ι (Option α) := fun items =>
  match reader items with
  | .accepted value rest => .accepted (some value) rest
  | .declined _ => .accepted none items
  | .refused mismatch => .refused mismatch

/-- As many values as there are, up to one that takes no item. -/
def many (reader : Reader ι α) (items : List ι) : Outcome ι (List α) :=
  match reader items with
  | .accepted value rest =>
    if _h : rest.length < items.length then
      match many reader rest with
      | .accepted values last => .accepted (value :: values) last
      | .declined mismatch => .declined mismatch
      | .refused mismatch => .refused mismatch
    else .accepted [] items
  | .declined _ => .accepted [] items
  | .refused mismatch => .refused mismatch
termination_by items.length

/-- One value or more, with `separator` between them. -/
def separated (separator : Reader ι Unit) (reader : Reader ι α) : Reader ι (List α) := do
  let first ← reader
  let others ← many do
    separator
    reader
  return first :: others

def present (reader : Reader ι α) : Reader ι Bool := do
  let value? ← optional reader
  return value?.isSome

def orEmpty (reader : Reader ι (List α)) : Reader ι (List α) := do
  let values? ← optional reader
  return values?.getD []

end Reader

end DomainAtlas.Grammar
