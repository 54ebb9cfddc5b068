/-!
# Settings

How canonical text is indented and whether warnings fail a check.
-/
set_option autoImplicit false

namespace DomainAtlas

structure Settings where
  indentWidth : Nat := 4
  denyWarnings : Bool := false
  deriving DecidableEq, Repr

end DomainAtlas
