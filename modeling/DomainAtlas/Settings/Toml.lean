import DomainAtlas.Settings
import DomainAtlas.Text.Quoted
import DomainAtlas.Text.Split
/-!
# Settings files

A reader for the part of TOML that settings are written in: tables of bare keys, each with an integer, a truth
value or a quoted text, one to a line. Commands do not depend on it; they take the settings from any reader.
-/
set_option autoImplicit false

namespace DomainAtlas.Toml

inductive Value
  | integer (value : Int)
  | boolean (value : Bool)
  | string (value : String)
  deriving DecidableEq, Repr

structure Entry where
  /-- The table, or nothing before the first table. -/
  table : Option String
  key : String
  value : Value
  deriving DecidableEq, Repr

structure Document where
  tables : List String := []
  entries : List Entry := []
  deriving DecidableEq, Repr

def isSpace (c : Char) : Bool :=
  c == ' ' || c == '\t'

def isKeyChar (c : Char) : Bool :=
  c.isAlphanum || c == '_' || c == '-'

def endsLine (cs : List Char) : Bool :=
  match cs.dropWhile isSpace with
  | [] => true
  | c :: _ => c == '#'

def key? (cs : List Char) : Option (String × List Char) :=
  match cs.takeWhile isKeyChar with
  | [] => none
  | run => some (String.ofList run, (cs.dropWhile isKeyChar).dropWhile isSpace)

/-- Digits with single underscores between them. -/
def digits? : List Char → Option (List Char)
  | [] => none
  | [c] => if c.isDigit then some [c] else none
  | c :: '_' :: rest => if c.isDigit then (digits? rest).map (c :: ·) else none
  | c :: rest => if c.isDigit then (digits? rest).map (c :: ·) else none

/-- The number of a run of digits, which has no zero in front of others. -/
def natural? (cs : List Char) : Option Nat := do
  let digits ← digits? cs
  if digits.length > 1 ∧ digits.head? = some '0' then none
  else some (digits.foldl (fun value c => value * 10 + (c.toNat - '0'.toNat)) 0)

def integer? (cs : List Char) : Option Int := do
  let value ← match cs with
    | '-' :: rest => (natural? rest).map fun n => -(n : Int)
    | '+' :: rest => (natural? rest).map Int.ofNat
    | rest => (natural? rest).map Int.ofNat
  if -9223372036854775808 ≤ value ∧ value ≤ 9223372036854775807 then some value else none

def value? (cs : List Char) : Option (Value × List Char) :=
  match cs with
  | '"' :: rest =>
    match Text.Quoted.readBody rest with
    | .closed value _ after => some (.string (String.ofList value), after)
    | _ => none
  | _ =>
    let word := cs.takeWhile fun c => !isSpace c && c != '#'
    let after := cs.dropWhile fun c => !isSpace c && c != '#'
    if word = "true".toList then some (.boolean true, after)
    else if word = "false".toList then some (.boolean false, after)
    else (integer? word).map fun value => (.integer value, after)

/-- Adds a line to what was read before it; `table` is the table that is open. -/
def addLine (document : Document) (table : Option String) (line : List Char) :
    Option (Document × Option String) :=
  match line.dropWhile isSpace with
  | [] => some (document, table)
  | '#' :: _ => some (document, table)
  | '[' :: rest => do
    let (name, after) ← key? (rest.dropWhile isSpace)
    match after with
    | ']' :: last =>
      if endsLine last ∧ name ∉ document.tables ∧
          (document.entries.all fun entry => entry.table != none || entry.key != name) then
        some ({ document with tables := document.tables ++ [name] }, some name)
      else none
    | _ => none
  | rest => do
    let (key, after) ← key? rest
    match after with
    | '=' :: last =>
      let (value, final) ← value? (last.dropWhile isSpace)
      if endsLine final ∧
          (document.entries.all fun entry => entry.table != table || entry.key != key) then
        some ({ document with entries := document.entries ++ [⟨table, key, value⟩] }, table)
      else none
    | _ => none

def addLines (document : Document) (table : Option String) : List (List Char) → Option Document
  | [] => some document
  | line :: lines => do
    let (document, table) ← addLine document table line
    addLines document table lines

/-- A line without the carriage return at its end. -/
def withoutReturn (line : List Char) : List Char :=
  if line.getLast? = some '\r' then line.dropLast else line

def Document.ofText? (text : String) : Option Document :=
  addLines {} none ((Text.splitChars '\n' text.toList).map withoutReturn)

def Document.value? (document : Document) (table key : String) : Option Value :=
  (document.entries.find? fun entry => entry.table == some table && entry.key == key).map (·.value)

end DomainAtlas.Toml

namespace DomainAtlas.Settings

/-- The indent width that a file sets, nothing where the value is not a natural number. -/
def indentWidth? : Option Toml.Value → Option Nat
  | none => some ({} : Settings).indentWidth
  | some (.integer (.ofNat width)) => some width
  | some _ => none

/-- The policy that a file sets, nothing where the value is not a truth value. -/
def denyWarnings? : Option Toml.Value → Option Bool
  | none => some ({} : Settings).denyWarnings
  | some (.boolean deny) => some deny
  | some _ => none

/-- Whether the two tables of settings are tables where they occur. -/
def hasTables (document : Toml.Document) : Bool :=
  document.entries.all fun entry =>
    entry.table != none || (entry.key != "writer" && entry.key != "validation")

/-- The settings in a file. Tables and keys that are not known are ignored. -/
def ofToml? (text : String) : Option Settings := do
  let document ← Toml.Document.ofText? text
  guard (hasTables document)
  let indentWidth ← indentWidth? (document.value? "writer" "indent_width")
  let denyWarnings ← denyWarnings? (document.value? "validation" "deny_warnings")
  return { indentWidth, denyWarnings }

end DomainAtlas.Settings
