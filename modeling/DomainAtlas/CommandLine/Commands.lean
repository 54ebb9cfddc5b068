import DomainAtlas.CommandLine.Arguments
import DomainAtlas.Workbench
/-!
# Commands

What a command does: it finds its settings, reads its input, and then checks or formats it. A command reaches
what is around it only through what it is given for that, so that one and the same run can be carried out on a
real system and on a state of files.
-/
set_option autoImplicit false

namespace DomainAtlas.CommandLine

/-- What a command can do and find out around it. -/
structure Surroundings (m : Type → Type) where
  read : String → m (Except FileProblem String)
  has : String → m Bool
  write : String → String → m (Except FileProblem Unit)
  print : String → m Unit
  warn : String → m Unit
  /-- The settings in the text of a file, nothing where it cannot be read as such. -/
  settingsOf? : String → Option Settings
  /-- The directory of the settings that hold for all working directories. -/
  settingsDirectory? : Option String

namespace Surroundings

variable {m : Type → Type} [Monad m] (around : Surroundings m)

def readFile (path : String) : ExceptT Failure m String := do
  match ← around.read path with
  | .ok content => return content
  | .error problem => throw (.file problem)

def writeFile (path text : String) : ExceptT Failure m Unit := do
  match ← around.write path text with
  | .ok () => return ()
  | .error problem => throw (.file problem)

def settingsAt (path : String) : ExceptT Failure m Settings := do
  if ← around.has path then
    let content ← around.readFile path
    match around.settingsOf? content with
    | some settings => return settings
    | none => throw (.settings .malformed)
  else throw (.settings (.missing path))

def localSettings : String := "ctxmap/config.toml"

/-- The settings of the file that is asked for, or of the first that is there: the working directory's and
the one for all directories. -/
def settings : Option String → ExceptT Failure m Settings
  | some path => around.settingsAt path
  | none => do
    if ← around.has localSettings then around.settingsAt localSettings
    else
      match around.settingsDirectory? with
      | none => return {}
      | some directory =>
        if ← around.has (directory ++ "/config.toml") then around.settingsAt (directory ++ "/config.toml")
        else return {}

/-- Warns about what is found in a document that passes the check. -/
def check (settings : Settings) (input : String) : ExceptT Failure m Unit := do
  let source ← around.readFile input
  let model ← MonadExcept.ofExcept (readModel source)
  let report ← MonadExcept.ofExcept (settings.check model)
  report.warnings.forM fun finding => around.warn finding.text

def format (settings : Settings) (input : String) (output? : Option String) (checkOnly : Bool) :
    ExceptT Failure m Unit := do
  let source ← around.readFile input
  let model ← MonadExcept.ofExcept (readModel source)
  let text := settings.print model
  if checkOnly then
    if text = source then return () else throw (.file (.notCanonical input))
  else
    match output? with
    | some path => around.writeFile path text
    | none => around.print text

def run (arguments : Arguments) : ExceptT Failure m Unit := do
  let settings ← around.settings arguments.settingsPath?
  match arguments.command with
  | .check input => around.check settings input
  | .format input output? checkOnly => around.format settings input output? checkOnly

end Surroundings

end DomainAtlas.CommandLine
