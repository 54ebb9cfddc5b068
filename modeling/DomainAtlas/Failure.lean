import DomainAtlas.Editing.Rejection
/-!
# Failures and how they are reported

All that can go wrong when a document is read, checked, edited or formatted, and the reports that are
made of it: one for each diagnostic, one for each finding, or a single one.
-/
set_option autoImplicit false

namespace DomainAtlas

inductive FileProblem
  | notFound
  | notDirectory
  | isDirectory
  | notCanonical (path : String)
  | other (message : String)
  deriving DecidableEq, Repr

def FileProblem.text : FileProblem → String
  | .notFound => "No such file or directory (os error 2)"
  | .notDirectory => "Not a directory (os error 20)"
  | .isDirectory => "Is a directory (os error 21)"
  | .notCanonical path => path ++ " is not in canonical form"
  | .other message => message

inductive SettingsProblem
  | malformed
  | missing (path : String)
  deriving DecidableEq, Repr

def SettingsProblem.text : SettingsProblem → String
  | .malformed => "Failed to parse TOML configuration"
  | .missing path => "Missing configuration file: " ++ path

inductive Failure
  | file (problem : FileProblem)
  | parse (error : ParseError) (source : String)
  | validation (report : Report)
  | edit (error : EditError)
  | settings (problem : SettingsProblem)
  deriving DecidableEq, Repr

def Failure.message : Failure → String
  | .file problem => "I/O error: " ++ problem.text
  | .parse error _ => error.text
  | .validation report => "validation failed: " ++ report.text
  | .edit error => error.message
  | .settings problem => "Configuration error: " ++ problem.text

structure FailureReport where
  message : String
  code : Option String
  severity : Option Severity
  help : Option String
  /-- Whether the labels point into the source of a failed reading. -/
  hasSource : Bool
  labels : List Label
  deriving DecidableEq, Repr

def Diagnostic.failureReport (diagnostic : Diagnostic) : FailureReport where
  message := diagnostic.message
  code := diagnostic.code.map ErrorCode.text
  severity := some diagnostic.severity
  help := diagnostic.help
  hasSource := true
  labels := diagnostic.labels

def Finding.failureReport (finding : Finding) : FailureReport where
  message := finding.located
  code := some finding.code.text
  severity := some finding.severity
  help := finding.suggestion?
  hasSource := false
  labels := []

/-- The single report on a failure without parts. -/
def plainReport (code message : String) (help : Option String) : FailureReport where
  message := message
  code := some code
  severity := none
  help := help
  hasSource := false
  labels := []

def Failure.reports (failure : Failure) : List FailureReport :=
  match failure with
  | .file _ => [plainReport "ctxmap::io" failure.message none]
  | .parse error _ => error.diagnostics.map Diagnostic.failureReport
  | .validation report => report.findings.map Finding.failureReport
  | .edit error =>
    [plainReport "ctxmap::edit" failure.message
      (error.suggestion?.map fun advice => "try `" ++ advice ++ "`")]
  | .settings _ => [plainReport "ctxmap::config" failure.message none]

end DomainAtlas
