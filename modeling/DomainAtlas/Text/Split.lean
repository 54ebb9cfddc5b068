/-!
# Splitting
-/
set_option autoImplicit false

namespace DomainAtlas.Text

/-- The pieces between the separators; there is one more of them than of separators. -/
def splitChars (separator : Char) : List Char → List (List Char)
  | [] => [[]]
  | c :: cs =>
    if c = separator then [] :: splitChars separator cs
    else
      match splitChars separator cs with
      | [] => [[c]]
      | piece :: pieces => (c :: piece) :: pieces

def split (separator : Char) (text : String) : List String :=
  (splitChars separator text.toList).map String.ofList

end DomainAtlas.Text
