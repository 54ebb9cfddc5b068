/-!
# Byte lengths

Offsets into a text count the bytes of its UTF-8 form, though texts are read character by character.
-/
set_option autoImplicit false

namespace DomainAtlas.Text

def byteLength (cs : List Char) : Nat :=
  cs.foldr (fun c total => c.utf8Size + total) 0

@[simp] theorem byteLength_nil : byteLength [] = 0 := rfl

@[simp] theorem byteLength_cons (c : Char) (cs : List Char) :
    byteLength (c :: cs) = c.utf8Size + byteLength cs := rfl

@[simp] theorem byteLength_append (as bs : List Char) :
    byteLength (as ++ bs) = byteLength as + byteLength bs := by
  induction as with
  | nil => rw [List.nil_append, byteLength_nil, Nat.zero_add]
  | cons c as ih => rw [List.cons_append, byteLength_cons, byteLength_cons, ih, Nat.add_assoc]

/-- The characters before byte offset `offset`, or nothing when the offset falls inside a character
or past the end. -/
def before? : Nat → List Char → Option (List Char)
  | 0, _ => some []
  | _ + 1, [] => none
  | offset + 1, c :: cs =>
    if c.utf8Size ≤ offset + 1 then (before? (offset + 1 - c.utf8Size) cs).map (c :: ·) else none

end DomainAtlas.Text
