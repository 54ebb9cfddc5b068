import DomainAtlas.Model.Kinds
/-!
# Type references

The type of an attribute, a parameter or a returned value: a name, a collection of a named type, or a
reference to a named type. Collections do not nest.
-/
set_option autoImplicit false

namespace DomainAtlas

inductive TypeRef
  | named (name : String)
  | collection (kind : CollectionKind) (element : String)
  | reference (target : String)
  deriving DecidableEq, Repr

namespace TypeRef

/-- The one name that the type mentions. -/
def baseName : TypeRef → String
  | named name => name
  | collection _ element => element
  | reference target => target

/-- The canonical form. Names stand bare in it even where they are keywords. -/
def text : TypeRef → String
  | named name => name
  | collection kind element => kind.keyword.text ++ "<" ++ element ++ ">"
  | reference target => "- " ++ target

end TypeRef

end DomainAtlas
