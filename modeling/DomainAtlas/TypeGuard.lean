import DomainAtlas.Naming
import DomainAtlas.Source
/-!
# Types that elements may have

A type is given as text. It is accepted when it is one of the three shapes of a type reference and its
name is not one of those that stand for a shape the language does not have, such as `Map`.
-/
set_option autoImplicit false

namespace DomainAtlas

def primitiveTypes : List String :=
  ["String", "int", "Integer", "long", "Long", "double", "Double", "float", "Float", "boolean",
    "Boolean", "BigDecimal", "Date", "DateTime", "Timestamp", "UUID"]

/-- A shape that no type can have, with the names by which it is asked for. -/
inductive ForeignShape
  | mapping
  | tuple
  | function
  | untyped
  deriving DecidableEq, Repr

def ForeignShape.advice : ForeignShape → String
  | mapping => "model the entries as a ValueObject and use `List<Entry>`"
  | tuple => "introduce a ValueObject with one attribute per component"
  | function => "behaviour belongs in an operation (`def`), not in an attribute"
  | untyped => "use a concrete type such as `String`"

/-- The names of foreign shapes, compared ignoring case. -/
def foreignTypes : List (String × ForeignShape) :=
  [("map", .mapping), ("hashmap", .mapping), ("treemap", .mapping), ("dictionary", .mapping),
    ("dict", .mapping), ("tuple", .tuple), ("pair", .tuple), ("function", .function),
    ("func", .function), ("callback", .function), ("lambda", .function), ("dynamic", .untyped),
    ("any", .untyped)]

def foreignShape? (name : String) : Option ForeignShape :=
  (foreignTypes.find? fun entry => Text.sameIgnoringCase entry.1 name).map (·.2)

inductive InvalidType
  | empty
  | foreign (type base : String) (shape : ForeignShape)
  | nestedCollection (type : String)
  | malformed (type : String)
  deriving DecidableEq, Repr

namespace InvalidType

def message : InvalidType → String
  | empty => "type must not be empty"
  | foreign type base _ => "type `" ++ type ++ "` uses unsupported type `" ++ base ++ "`"
  | nestedCollection type => "nested generic type `" ++ type ++ "` is not supported"
  | malformed type => "`" ++ type ++ "` is not a valid type"

def suggestion : InvalidType → String
  | empty => "use one of " ++ ", ".intercalate primitiveTypes
  | foreign _ _ shape => shape.advice
  | nestedCollection _ =>
    "wrap the inner collection in a ValueObject and use a single `List<T>` or `Set<T>`"
  | malformed _ => "use a primitive, a domain object name, `List<T>`, `Set<T>` or `- T`"

end InvalidType

/-- The part of a type before any angle bracket, without dashes and blanks around it. -/
def baseOfType (type : String) : String :=
  Text.trim (String.ofList ((type.toList.dropWhile (· == '-')).takeWhile (· != '<')))

def refuseForeign (type : String) : Except InvalidType Unit :=
  match foreignShape? (baseOfType type) with
  | some shape => .error (.foreign type (baseOfType type) shape)
  | none => .ok ()

/-- The written form of the type text `type`: the names in the three shapes of a type reference are
written as names, and any other text stays as it is. -/
def writtenType (type : String) : String :=
  let trimmed := Text.trim type
  match trimmed.toList with
  | '-' :: target => "- " ++ writtenName (Text.trim (String.ofList target))
  | cs =>
    match cs.dropWhile (· != '<') with
    | '<' :: inner => ofCollection trimmed (Text.trim (String.ofList (cs.takeWhile (· != '<')))) inner
    | _ => writtenName trimmed
where
  ofCollection (type kind : String) (inner : List Char) : String :=
    if inner.getLast? = some '>' ∧ (kind = "List" ∨ kind = "Set") then
      kind ++ "<" ++ writtenName (Text.trim (String.ofList inner.dropLast)) ++ ">"
    else type

def invalidTypeOf (type : String) (error : ParseError) : InvalidType :=
  if error.diagnostics.any fun diagnostic => diagnostic.code == some .nestedCollection then
    .nestedCollection type
  else .malformed type

def acceptType (type : String) : Except InvalidType TypeRef := do
  let trimmed := Text.trim type
  if trimmed = "" then throw .empty
  refuseForeign trimmed
  match TypeRef.ofText (writtenType trimmed) with
  | .ok (.collection kind element) =>
    refuseForeign element
    return .collection kind element
  | .ok accepted => return accepted
  | .error error => throw (invalidTypeOf trimmed error)

end DomainAtlas
