import DomainAtlas.Grammar.Words
import DomainAtlas.Syntax
/-!
# Types and the members of aggregates
-/
set_option autoImplicit false

namespace DomainAtlas.Grammar

open Reader

variable {ι : Type} [Readable ι]

def collectionKind : Reader ι CollectionKind :=
  keywordValue .collectionKind CollectionKind.ofKeyword?

/-- The name between the angle brackets of a collection. Another collection there is refused with a
complaint of its own. -/
def collectionElement : Reader ι String := fun items =>
  match collectionKind (skipTrivia items) with
  | .accepted _ _ => .refused ⟨.nestedCollection, skipTrivia items⟩
  | _ => name (skipTrivia items)

def collectionType : Reader ι TypeRef := do
  let kind ← collectionKind
  commit do
    symbol .lessThan
    let element ← collectionElement
    symbol .greaterThan
    return .collection kind element

def referenceType : Reader ι TypeRef := do
  symbol .dash
  commit do
    let target ← name
    return .reference target

def namedType : Reader ι TypeRef := do
  let text ← name
  return .named text

def typeRef : Reader ι TypeRef :=
  expecting .type (collectionType <|> referenceType <|> namedType)

def attributeDecl : Reader ι AttributeDecl := do
  let type ← typeRef
  commit do
    let name ← attributeName
    let key ← present (keyword .key)
    let nullable ← present (keyword .nullable)
    let _ ← optional (symbol .semicolon)
    return { type, name, key, nullable }

def parameterDecl : Reader ι ParameterDecl := do
  let type ← typeRef
  let name ← attributeName
  return { type, name }

/-- The name of an operation, with the type that it returns before it. -/
def typedName : Reader ι (Option TypeRef × String) := do
  let type ← typeRef
  let name ← attributeName
  return (some type, name)

def bareName : Reader ι (Option TypeRef × String) := do
  let name ← attributeName
  return (none, name)

def operationDecl : Reader ι OperationDecl := do
  keyword .define
  commit do
    let (returnType, name) ← typedName <|> bareName
    symbol .leftParen
    let parameters ← orEmpty (separated comma parameterDecl)
    symbol .rightParen
    let _ ← optional (symbol .semicolon)
    return { returnType, name, parameters }

def rootMark : Reader ι EntityItem := do
  keyword .aggregateRoot
  return .root

def entityItem : Reader ι EntityItem :=
  rootMark <|> EntityItem.operation <$> operationDecl <|> EntityItem.attribute <$> attributeDecl

def entityDecl : Reader ι EntityDecl := do
  keyword .entity
  commit do
    let name ← name
    let items ← optionalBlock entityItem
    return { name, items }

/-- A value object, a domain event or a command, as the keyword `kind` says. -/
def objectDecl (kind : Keyword) : Reader ι ObjectDecl := do
  keyword kind
  commit do
    let name ← name
    let attributes ← optionalBlock attributeDecl
    return { name, attributes }

def serviceDecl : Reader ι ServiceDecl := do
  keyword .service
  commit do
    let name ← name
    let operations ← optionalBlock operationDecl
    return { name, operations }

end DomainAtlas.Grammar
