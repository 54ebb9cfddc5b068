import DomainAtlas.Failure
import DomainAtlas.Printer
import DomainAtlas.Settings
import DomainAtlas.Validation.Rules
/-!
# Reading, checking and writing under settings
-/
set_option autoImplicit false

namespace DomainAtlas

def readModel (source : String) : Except Failure Model :=
  (Model.ofSource source).mapError fun error => .parse error source

namespace Settings

/-- The report on a model, unless it has errors or warnings that the settings deny. -/
def check (settings : Settings) (model : Model) : Except Failure Report :=
  let report := model.validate
  if !report.isValid || (settings.denyWarnings && report.hasWarnings) then .error (.validation report)
  else .ok report

def print (settings : Settings) (model : Model) : String :=
  model.print settings.indentWidth

end Settings

def Model.text (model : Model) : String :=
  Settings.print {} model

def Model.isReadFrom (model : Model) (text : String) : Bool :=
  match Model.ofSource text with
  | .ok read => read = model
  | .error _ => false

end DomainAtlas
