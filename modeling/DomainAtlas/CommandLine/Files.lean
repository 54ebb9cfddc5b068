import DomainAtlas.Failure
import DomainAtlas.Text.Split
/-!
# Files

A directory tree as the list of its files, and the directory that commands run in. A directory is there when a
file is in it, or when it is the working directory or leads there.
-/
set_option autoImplicit false

namespace DomainAtlas.CommandLine

/-- A file, with its path from the root. -/
structure File where
  path : String
  content : String
  deriving DecidableEq, Repr

abbrev Files := List File

structure Tree where
  files : Files
  /-- Where paths start that do not start at the root. -/
  workingDirectory : String := "/"
  deriving DecidableEq, Repr

inductive Entry
  | file (content : String)
  | directory
  | absent
  deriving DecidableEq, Repr

def steps (path : String) : List String :=
  Text.split '/' path

/-- The names that a path is made of. -/
def namesOf (path : String) : List String :=
  (steps path).filter (· ≠ "")

namespace Tree

/-- The entry that the names `names` lead to from the root. -/
def entry (tree : Tree) (names : List String) : Entry :=
  match tree.files.find? fun file => namesOf file.path == names with
  | some file => .file file.content
  | none =>
    if names.isPrefixOf (namesOf tree.workingDirectory) ||
        tree.files.any fun file => names.isPrefixOf (namesOf file.path) then .directory
    else .absent

/-- Where steps lead from `names` on; each of them has to start in a directory. -/
def walk (tree : Tree) (names : List String) : List String → Except FileProblem (List String)
  | [] => .ok names
  | step :: others =>
    match tree.entry names with
    | .file _ => .error .notDirectory
    | .absent => .error .notFound
    | .directory =>
      if step = "" ∨ step = "." then walk tree names others
      else if step = ".." then walk tree names.dropLast others
      else walk tree (names ++ [step]) others

def resolve (tree : Tree) (path : String) : Except FileProblem (List String) :=
  if path = "" then .error .notFound
  else if path.toList.head? = some '/' then tree.walk [] (steps path)
  else tree.walk [] (steps tree.workingDirectory ++ steps path)

def read (tree : Tree) (path : String) : Except FileProblem String := do
  let names ← tree.resolve path
  match tree.entry names with
  | .file content => return content
  | .directory => throw .isDirectory
  | .absent => throw .notFound

def has (tree : Tree) (path : String) : Bool :=
  match tree.resolve path with
  | .ok names => tree.entry names != .absent
  | .error _ => false

/-- Puts a file at the place of one with the same names, or behind the others. -/
def put (tree : Tree) (names : List String) (content : String) : Tree :=
  if tree.files.any fun file => namesOf file.path == names then
    { tree with
      files := tree.files.map fun file => if namesOf file.path == names then { file with content } else file }
  else { tree with files := tree.files ++ [⟨"/".intercalate names, content⟩] }

def write (tree : Tree) (path content : String) : Except FileProblem Unit × Tree :=
  match tree.resolve path with
  | .error problem => (.error problem, tree)
  | .ok names =>
    match tree.entry names with
    | .directory => (.error .isDirectory, tree)
    | _ => (.ok (), tree.put names content)

end Tree

/-- The files of `later` that are new or changed. -/
def Files.changes (files later : Files) : Files :=
  later.filter fun file => file ∉ files

end DomainAtlas.CommandLine
