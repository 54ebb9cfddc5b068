import DomainAtlas.Keyword
import DomainAtlas.Text.Blank
/-!
# Names as written, and names refused

A name that is spelt like a keyword is written with a caret in front. Blanks around a name do not keep
it from being reserved.
-/
set_option autoImplicit false

namespace DomainAtlas

/-- The name of an element, written so that it is read as a name. -/
def writtenName (name : String) : String :=
  if isKeyword name then "^" ++ name else name

/-- The name of an attribute, a parameter or an operation. It gets a caret where it differs from a
keyword only in the case of letters. -/
def writtenMemberName (name : String) : String :=
  if isReservedWord name then "^" ++ name else name

/-- The listed spelling of the reserved name that `name` amounts to. -/
def reservedSpelling? (name : String) : Option String :=
  reservedObjectName? (Text.trim name)

/-- Names to take instead of the reserved name `reserved`. -/
def alternativeNames (reserved : String) : List String :=
  [reserved ++ "Item", reserved ++ "Record", "Domain" ++ reserved]

end DomainAtlas
