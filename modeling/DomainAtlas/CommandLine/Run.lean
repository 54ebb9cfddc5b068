import DomainAtlas.CommandLine.Files
import DomainAtlas.CommandLine.Platform
import DomainAtlas.Settings.Toml
/-!
# Runs on a directory tree
-/
set_option autoImplicit false

namespace DomainAtlas.CommandLine

def Tree.platform (settingsDirectory? : Option String) : Platform Tree where
  read := read
  has := has
  write := write
  settingsOf? := Settings.ofToml?
  settingsDirectory? := settingsDirectory?

abbrev Run := Ending Files

/-- Runs a command in the root directory. -/
def Files.run (files : Files) (settingsDirectory? : Option String) (arguments : Arguments) : Run :=
  let ended := (Tree.platform settingsDirectory?).run { files } arguments
  { files := ended.files.files
    printed := ended.printed
    warnings := ended.warnings
    result := ended.result }

end DomainAtlas.CommandLine
