import DomainAtlas.Span
/-!
# Diagnostics

What reading a source has to say: a message with a code, labelled places and advice. A failed reading
gives all its diagnostics at once.
-/
set_option autoImplicit false

namespace DomainAtlas

inductive Severity
  | error
  | warning
  deriving DecidableEq, Repr

def Severity.text : Severity → String
  | .error => "error"
  | .warning => "warning"

inductive ErrorCode
  | unterminatedString
  | unexpectedCharacter
  | invalidEscape
  | unterminatedComment
  | danglingEscape
  | unexpectedToken
  | incompleteInput
  | nestedCollection
  | duplicateContextMap
  deriving DecidableEq, Repr

namespace ErrorCode

def all : List ErrorCode :=
  [unterminatedString, unexpectedCharacter, invalidEscape, unterminatedComment, danglingEscape,
    unexpectedToken, incompleteInput, nestedCollection, duplicateContextMap]

def text : ErrorCode → String
  | unterminatedString => "E001"
  | unexpectedCharacter => "E002"
  | invalidEscape => "E003"
  | unterminatedComment => "E004"
  | danglingEscape => "E005"
  | unexpectedToken => "E100"
  | incompleteInput => "E101"
  | nestedCollection => "E102"
  | duplicateContextMap => "E103"

def description : ErrorCode → String
  | unterminatedString => "unterminated string literal"
  | unexpectedCharacter => "unexpected character"
  | invalidEscape => "invalid escape sequence"
  | unterminatedComment => "unterminated block comment"
  | danglingEscape => "dangling escape marker"
  | unexpectedToken => "unexpected token"
  | incompleteInput => "incomplete input"
  | nestedCollection => "nested generic type"
  | duplicateContextMap => "duplicate context map"

def ofText? (text : String) : Option ErrorCode :=
  all.find? fun code => code.text == text

end ErrorCode

structure Label where
  span : Span
  message : String
  /-- Whether the label marks the place that the diagnostic is about. -/
  primary : Bool
  deriving DecidableEq, Repr

structure Diagnostic where
  severity : Severity
  code : Option ErrorCode
  message : String
  labels : List Label
  help : Option String
  deriving DecidableEq, Repr

namespace Diagnostic

def primarySpan? (diagnostic : Diagnostic) : Option Span :=
  (diagnostic.labels.find? (·.primary)).map (·.span)

def position? (diagnostic : Diagnostic) (source : String) : Option Position :=
  diagnostic.primarySpan?.map (·.position source)

def text (diagnostic : Diagnostic) : String :=
  diagnostic.severity.text
    ++ (match diagnostic.code with
      | some code => "[" ++ code.text ++ "]"
      | none => "")
    ++ ": " ++ diagnostic.message

end Diagnostic

structure ParseError where
  diagnostics : List Diagnostic
  deriving DecidableEq, Repr

/-- The first diagnostic and the number of the others. -/
def ParseError.text (error : ParseError) : String :=
  match error.diagnostics with
  | [] => ""
  | [only] => only.text
  | first :: others => first.text ++ " (+" ++ toString others.length ++ " more)"

end DomainAtlas
