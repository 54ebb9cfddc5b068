import DomainAtlas.CommandLine.Commands
/-!
# Platforms

A platform has the files in a state, which only writing changes. A command that runs on it turns this state
and what was put out before it into others.
-/
set_option autoImplicit false

namespace DomainAtlas.CommandLine

/-- Files as a state of type `σ`, and where settings come from. -/
structure Platform (σ : Type) where
  read : σ → String → Except FileProblem String
  has : σ → String → Bool
  /-- Replaces the text at a path. What the files have become is told also where that fails. -/
  write : σ → String → String → Except FileProblem Unit × σ
  settingsOf? : String → Option Settings
  settingsDirectory? : Option String

structure World (σ : Type) where
  files : σ
  printed : String := ""
  warnings : List String := []

/-- The world after a run, and how the run ended. -/
structure Ending (σ : Type) extends World σ where
  result : Except Failure Unit

variable {σ α : Type}

abbrev Step (σ α : Type) := ExceptT Failure (StateM (World σ)) α

/-- How a step ends that is taken in `world`, and the world after it. -/
def Step.on (step : Step σ α) (world : World σ) : Except Failure α × World σ :=
  step.run.run world

namespace Platform

variable (platform : Platform σ)

def surroundings : Surroundings (StateM (World σ)) where
  read path := return platform.read (← get).files path
  has path := return platform.has (← get).files path
  write path text := modifyGet fun world =>
    let written := platform.write world.files path text
    (written.1, { world with files := written.2 })
  print text := modify fun world => { world with printed := world.printed ++ text }
  warn text := modify fun world => { world with warnings := world.warnings ++ [text] }
  settingsOf? := platform.settingsOf?
  settingsDirectory? := platform.settingsDirectory?

/-- The settings that a command finds. -/
def settings (files : σ) (given? : Option String) : Except Failure Settings :=
  (Step.on (platform.surroundings.settings given?) { files }).1

def run (files : σ) (arguments : Arguments) : Ending σ :=
  let ended := Step.on (platform.surroundings.run arguments) { files }
  { ended.2 with result := ended.1 }

end Platform

end DomainAtlas.CommandLine
