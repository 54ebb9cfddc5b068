import DomainAtlas.Layout
import DomainAtlas.Model.Basic
import DomainAtlas.Text.Quoted
import DomainAtlas.TypeGuard
/-!
# Canonical text of models

The canonical form of a document: the context map first, then the contexts, each element's properties in
a fixed order and its members grouped by kind.
-/
set_option autoImplicit false

namespace DomainAtlas

open Text.Quoted (quote)

namespace Printer

def nameList (names : List String) : String :=
  ", ".intercalate (names.map writtenName)

def quotedList (texts : List String) : String :=
  ", ".intercalate (texts.map quote)

def optionalLine {α : Type} (label : String) (value? : Option α) (text : α → String) : List String :=
  match value? with
  | some value => [label ++ " = " ++ text value]
  | none => []

def listLine (label : String) (values : List String) (text : List String → String) : List String :=
  if values.isEmpty then [] else [label ++ text values]

/-- A block that is written as a bare header when it is empty. -/
def memberBlock (header : String) (lines : List String) : Layout :=
  if lines.isEmpty then .line header else .block header lines []

/-- A block that is written on one line, braces included, when it is empty. -/
def closedBlock (header : String) (properties : List String) (children : List Layout) : Layout :=
  if properties.isEmpty && children.isEmpty then .line (header ++ " \x7b\x7d")
  else .block header properties children

def typedName (type name : String) : String :=
  writtenType type ++ " " ++ writtenMemberName name

def attributeLine (member : Attribute) : String :=
  typedName member.type member.name ++ (if member.key then " key" else "")
    ++ (if member.nullable then " nullable" else "")

def operationLine (member : Operation) : String :=
  let parameters := member.parameters.map fun parameter => typedName parameter.type parameter.name
  let head := match member.returnType with
    | some type => typedName type member.name
    | none => writtenMemberName member.name
  "def " ++ head ++ "(" ++ ", ".intercalate parameters ++ ");"

def entityLayout (entity : Entity) : Layout :=
  memberBlock ("Entity " ++ writtenName entity.name)
    ((if entity.isRoot then ["aggregateRoot"] else []) ++ entity.attributes.map attributeLine
      ++ entity.operations.map operationLine)

def objectLayout (kind : Keyword) (object : DomainObject) : Layout :=
  memberBlock (kind.text ++ " " ++ writtenName object.name) (object.attributes.map attributeLine)

def serviceLayout (service : Service) : Layout :=
  memberBlock ("Service " ++ writtenName service.name) (service.operations.map operationLine)

def responsibilitiesLine (texts : List String) : List String :=
  listLine "responsibilities = " texts quotedList

def technologyLine (technology? : Option String) : List String :=
  optionalLine "implementationTechnology" technology? quote

def levelLine (level? : Option KnowledgeLevel) : List String :=
  optionalLine "knowledgeLevel" level? fun level => level.keyword.text

def aggregateLayout (aggregate : Aggregate) : Layout :=
  closedBlock ("Aggregate " ++ writtenName aggregate.name)
    (responsibilitiesLine aggregate.responsibilities ++ levelLine aggregate.knowledgeLevel)
    (aggregate.entities.map entityLayout
      ++ aggregate.valueObjects.map (objectLayout .valueObject)
      ++ aggregate.domainEvents.map (objectLayout .domainEvent)
      ++ aggregate.commands.map (objectLayout .command)
      ++ aggregate.services.map serviceLayout)

def moduleLayout (module : Module) : Layout :=
  closedBlock ("Module " ++ writtenName module.name) [] (module.aggregates.map aggregateLayout)

def contextLayout (context : BoundedContext) : Layout :=
  closedBlock ("BoundedContext " ++ writtenName context.name)
    (optionalLine "domainVisionStatement" context.visionStatement quote
      ++ responsibilitiesLine context.responsibilities
      ++ technologyLine context.implementationTechnology
      ++ levelLine context.knowledgeLevel
      ++ optionalLine "type" context.contextType fun type => type.keyword.text)
    (context.aggregates.map aggregateLayout ++ context.modules.map moduleLayout)

/-- What stands at one end of an arrow. -/
def rolesText (side : Keyword) (patterns : List Keyword) : String :=
  "[" ++ ",".intercalate ((side :: patterns).map Keyword.text) ++ "]"

def relationshipLayout : Relationship → Layout
  | .symmetric kind first second =>
    .line (writtenName first ++ " " ++ kind.keyword.text ++ " " ++ writtenName second)
  | .directed relationship =>
    memberBlock
      (writtenName relationship.upstream ++ " "
        ++ rolesText .u (relationship.upstreamPatterns.map UpstreamPattern.keyword) ++ " -> "
        ++ rolesText .d (relationship.downstreamPatterns.map DownstreamPattern.keyword) ++ " "
        ++ writtenName relationship.downstream)
      (listLine "exposedAggregates = " relationship.exposedAggregates nameList
        ++ technologyLine relationship.implementationTechnology)

def mapLayout (map : ContextMap) : Layout :=
  .block
    (match map.name with
      | some name => "ContextMap " ++ writtenName name
      | none => "ContextMap")
    (optionalLine "type" map.mapType id ++ ["state = " ++ map.state.keyword.text]
      ++ listLine "contains " map.contains nameList)
    (map.relationships.map relationshipLayout)

end Printer

namespace Model

def layout (model : Model) : List Layout :=
  model.contextMap.toList.map Printer.mapLayout ++ model.boundedContexts.map Printer.contextLayout

def print (model : Model) (width : Nat) : String :=
  Layout.render width model.layout

end Model

end DomainAtlas
