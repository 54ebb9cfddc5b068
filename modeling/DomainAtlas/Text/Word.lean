/-!
# Words

A word is a nonempty run of ASCII letters, digits and underscores that starts with no digit. Names in
a document are words. Comparison "ignoring case" folds ASCII letters only.
-/
set_option autoImplicit false

namespace DomainAtlas.Text

def isWordStart (c : Char) : Bool :=
  c.isAlpha || c == '_'

def isWordChar (c : Char) : Bool :=
  c.isAlphanum || c == '_'

def isWordChars : List Char → Bool
  | [] => false
  | c :: cs => isWordStart c && cs.all isWordChar

def isWord (text : String) : Bool :=
  isWordChars text.toList

theorem isWordChar_of_isWordStart {c : Char} (h : isWordStart c = true) : isWordChar c = true := by
  simp only [isWordStart, isWordChar, Char.isAlphanum, Bool.or_eq_true] at h ⊢
  rcases h with h | h
  · exact Or.inl (Or.inl h)
  · exact Or.inr h

/-- Splits off the longest run of word characters. -/
def spanWord (cs : List Char) : List Char × List Char :=
  (cs.takeWhile isWordChar, cs.dropWhile isWordChar)

def foldCase (text : String) : List Char :=
  text.toList.map Char.toLower

def sameIgnoringCase (a b : String) : Bool :=
  foldCase a == foldCase b

/-- Keeps the word characters and puts an underscore before a leading digit, so that what is left, if
anything, is a word. -/
def wordOf (raw : String) : String :=
  match raw.toList.filter isWordChar with
  | [] => ""
  | c :: cs => String.ofList (if c.isDigit then '_' :: c :: cs else c :: cs)

end DomainAtlas.Text
