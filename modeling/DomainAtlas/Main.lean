import DomainAtlas.CommandLine.Commands
import DomainAtlas.Settings.Toml
/-!
# The program

Carries commands out on the files of the system that the program runs on.
-/
set_option autoImplicit false

open DomainAtlas DomainAtlas.CommandLine

namespace DomainAtlas.Program

def problemOf : IO.Error → FileProblem
  | .noFileOrDirectory .. => .notFound
  -- some calls give the number of the problem with a sign
  | .inappropriateType _ code _ => if code = 20 ∨ code = -20 then .notDirectory else .isDirectory
  | error => .other (toString error)

def attempt {α : Type} (action : IO α) : IO (Except FileProblem α) := do
  try
    return .ok (← action)
  catch error =>
    return .error (problemOf error)

/-- A relative path in the first variable does not count. -/
def settingsDirectory? : IO (Option String) := do
  let named? := (← IO.getEnv "XDG_CONFIG_HOME").filter fun directory => directory.toList.head? = some '/'
  match named? with
  | some directory => return some (directory ++ "/ctxmap")
  | none => return (← IO.getEnv "HOME").map (· ++ "/.config/ctxmap")

def surroundings (settingsDirectory? : Option String) : Surroundings IO where
  read path := attempt (IO.FS.readFile path)
  -- a path is there unless it leads nowhere; the reason why it cannot be read tells
  has path := do
    match ← attempt (IO.FS.readFile path) with
    | .error .notFound => return false
    | .error .notDirectory => return false
    | _ => return true
  write path text := attempt (IO.FS.writeFile path text)
  print text := IO.print text
  warn text := IO.eprintln text
  settingsOf? := Settings.ofToml?
  settingsDirectory? := settingsDirectory?

def start (arguments : Arguments) : IO UInt32 := do
  let around := surroundings (← settingsDirectory?)
  match ← (around.run arguments).run with
  | .ok () => return 0
  | .error failure =>
    for report in failure.reports do
      IO.eprintln report.message
    return 1

def explain (error : UsageError) : IO UInt32 := do
  if error.isRequest then
    IO.print error.message
    return 0
  else
    IO.eprint error.message
    return 2

end DomainAtlas.Program

def main (arguments : List String) : IO UInt32 := do
  match Arguments.ofList arguments with
  | .ok parsed => Program.start parsed
  | .error error => Program.explain error
