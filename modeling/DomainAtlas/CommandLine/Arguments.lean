import DomainAtlas.Text.Split
/-!
# Arguments of the command line

`check INPUT` and `fmt INPUT` with their options. `--config` and `--log-level` may stand before the
subcommand and after it; the later place counts. Arguments are taken one by one, and an option is
settled when the next one begins, so that of several mistakes a definite one is reported.
-/
set_option autoImplicit false

namespace DomainAtlas.CommandLine

inductive Command
  | check (input : String)
  | format (input : String) (output? : Option String) (checkOnly : Bool)
  deriving DecidableEq, Repr

structure Arguments where
  command : Command
  settingsPath? : Option String := none
  logLevel : String := "info"
  deriving DecidableEq, Repr

inductive UsageError
  | noArguments
  | missingSubcommand
  | invalidSubcommand
  | missingInput
  | unknownArgument
  | conflict
  | missingValue
  | unneededValue
  | helpWanted
  | versionWanted
  deriving DecidableEq, Repr

def usage : String :=
  "usage: check [OPTIONS] INPUT\n"
    ++ "       fmt [OPTIONS] [-o OUTPUT | --check] INPUT\n"
    ++ "options: -c, --config FILE; --log-level LEVEL; -h, --help; -V, --version\n"

namespace UsageError

def message : UsageError → String
  | noArguments => usage
  | missingSubcommand => "a subcommand is missing\n"
  | invalidSubcommand => "there is no such subcommand\n"
  | missingInput => "the input is missing\n"
  | unknownArgument => "an argument is not known or one too many\n"
  | conflict => "an option is given twice, or two options exclude each other\n"
  | missingValue => "an option lacks its value\n"
  | unneededValue => "an option takes no value\n"
  | helpWanted => usage
  | versionWanted => "0.1.0\n"

def isRequest : UsageError → Bool
  | helpWanted => true
  | versionWanted => true
  | _ => false

end UsageError

inductive OptionName
  | settings
  | logLevel
  | output
  | check
  | help
  | version
  deriving DecidableEq, Repr

inductive Subcommand
  | check
  | format
  deriving DecidableEq, Repr

/-- The place of an argument: before the subcommand or after it. -/
inductive Level
  | top
  | sub (command : Subcommand)
  deriving DecidableEq, Repr

namespace OptionName

def takesValue : OptionName → Bool
  | settings => true
  | logLevel => true
  | output => true
  | _ => false

def isKnownAt : OptionName → Level → Bool
  | settings, _ => true
  | logLevel, _ => true
  | help, _ => true
  | version, .top => true
  | output, .sub .format => true
  | check, .sub .format => true
  | _, _ => false

def ofLong? (name : String) : Option OptionName :=
  if name = "config" then some settings
  else if name = "log-level" then some logLevel
  else if name = "output" then some output
  else if name = "check" then some check
  else if name = "help" then some help
  else if name = "version" then some version
  else none

def ofShort? (c : Char) : Option OptionName :=
  if c = 'c' then some settings
  else if c = 'o' then some output
  else if c = 'h' then some help
  else if c = 'V' then some version
  else none

end OptionName

inductive Shape
  /-- Two dashes: what follows are no options. -/
  | escape
  /-- An option, if it is a known one, with the value that is attached to it. -/
  | option (name? : Option OptionName) (attached? : Option String)
  | plain
  deriving DecidableEq, Repr

/-- The value after a one-letter option, with or without an equals sign. -/
def shortValue? : List Char → Option String
  | [] => none
  | '=' :: value => some (String.ofList value)
  | value => some (String.ofList value)

def longShape (body : List Char) : Shape :=
  let name := OptionName.ofLong? (String.ofList (body.takeWhile (· != '=')))
  match body.dropWhile (· != '=') with
  | [] => .option name none
  | _ :: value => .option name (some (String.ofList value))

def shortShape (c : Char) (rest : List Char) : Shape :=
  match OptionName.ofShort? c with
  | some name => .option (some name) (if name.takesValue then shortValue? rest else none)
  | none => .option none none

def shape (argument : String) : Shape :=
  match argument.toList with
  | '-' :: '-' :: body => if body.isEmpty then .escape else longShape body
  | '-' :: c :: rest => shortShape c rest
  | _ => .plain

structure Progress where
  /-- Options that are settled, with their values. -/
  settled : List (OptionName × String) := []
  /-- An option that is not settled yet, with its value if that has come. -/
  pending? : Option (OptionName × Option String) := none
  input? : Option String := none
  escaped : Bool := false
  deriving DecidableEq, Repr

namespace Progress

def has (progress : Progress) (name : OptionName) : Bool :=
  progress.settled.any fun entry => entry.1 == name

def value? (progress : Progress) (name : OptionName) : Option String :=
  (progress.settled.find? fun entry => entry.1 == name).map (·.2)

/-- Settles an option; none may be given twice at one level. -/
def settle (progress : Progress) (name : OptionName) (value : String) : Except UsageError Progress :=
  if progress.has name then .error .conflict
  else .ok { progress with settled := progress.settled ++ [(name, value)] }

def flush (progress : Progress) : Except UsageError Progress :=
  match progress.pending? with
  | none => .ok progress
  | some (_, none) => .error .missingValue
  | some (name, some value) => { progress with pending? := none }.settle name value

/-- Begins an option that may stand at `level`. -/
def begin (progress : Progress) (name : OptionName) (attached? : Option String) :
    Except UsageError Progress :=
  match name.takesValue, attached? with
  | false, some _ => .error .unneededValue
  | false, none => do
    let flushed ← progress.flush
    match name with
    | .help => throw .helpWanted
    | .version => throw .versionWanted
    | _ => flushed.settle name ""
  | true, some value => do
    let flushed ← progress.flush
    flushed.settle name value
  | true, none => do
    let flushed ← progress.flush
    return { flushed with pending? := some (name, none) }

def takeInput (progress : Progress) (argument : String) : Except UsageError Progress :=
  if progress.input?.isSome then .error .unknownArgument
  else do
    let flushed ← progress.flush
    return { flushed with input? := some argument }

/-- Whether the last argument was an option that still waits for its value. -/
def waits (progress : Progress) : Bool :=
  match progress.pending? with
  | some (_, none) => true
  | _ => false

def supply (progress : Progress) (value : String) : Progress :=
  { progress with pending? := progress.pending?.map fun entry => (entry.1, some value) }

def takeOption (progress : Progress) (level : Level) (name? : Option OptionName)
    (attached? : Option String) : Except UsageError Progress :=
  match name? with
  | none => .error .unknownArgument
  | some name =>
    if name.isKnownAt level then progress.begin name attached? else .error .unknownArgument

end Progress

def takeAll (command : Subcommand) (progress : Progress) : List String → Except UsageError Progress
  | [] => progress.flush
  | argument :: arguments =>
    if progress.escaped then do
      let next ← progress.takeInput argument
      takeAll command next arguments
    else
      match shape argument with
      | .escape => takeAll command { progress with escaped := true } arguments
      | .option name? attached? => do
        let next ← progress.takeOption (.sub command) name? attached?
        takeAll command next arguments
      | .plain =>
        if progress.waits then takeAll command (progress.supply argument) arguments
        else do
          let next ← progress.takeInput argument
          takeAll command next arguments

def commandOf (command : Subcommand) (progress : Progress) : Except UsageError Command :=
  if progress.has .check && progress.has .output then .error .conflict
  else
    match progress.input?, command with
    | none, _ => .error .missingInput
    | some input, .check => .ok (.check input)
    | some input, .format => .ok (.format input (progress.value? .output) (progress.has .check))

def helpOn : List String → UsageError
  | [] => .helpWanted
  | [name] =>
    if name = "check" ∨ name = "fmt" ∨ name = "help" then .helpWanted else .invalidSubcommand
  | _ => .invalidSubcommand

/-- Takes a subcommand and what follows it; `top` was taken before. -/
def takeSubcommand (top : Progress) (command : Subcommand) (arguments : List String) :
    Except UsageError Arguments := do
  let sub ← takeAll command {} arguments
  let command ← commandOf command sub
  let top ← top.flush
  return {
    command
    settingsPath? := (sub.value? .settings).or (top.value? .settings)
    logLevel := ((sub.value? .logLevel).or (top.value? .logLevel)).getD "info" }

def withoutSubcommand (progress : Progress) : UsageError :=
  match progress.flush with
  | .error error => error
  | .ok flushed => if flushed.settled.isEmpty then .noArguments else .missingSubcommand

/-- The mistake in an argument at the place of a subcommand that names none, or that follows two
dashes. -/
def notSubcommand (progress : Progress) (argument : String) : UsageError :=
  if progress.escaped ∧ (argument = "check" ∨ argument = "fmt" ∨ argument = "help") then
    .unknownArgument
  else .invalidSubcommand

def takeTop (progress : Progress) : List String → Except UsageError Arguments
  | [] => .error (withoutSubcommand progress)
  | argument :: arguments =>
    if progress.escaped then .error (notSubcommand progress argument)
    else
      match shape argument with
      | .escape => takeTop { progress with escaped := true } arguments
      | .option name? attached? => do
        let next ← progress.takeOption .top name? attached?
        takeTop next arguments
      | .plain =>
        if progress.waits then takeTop (progress.supply argument) arguments
        else if argument = "check" then takeSubcommand progress .check arguments
        else if argument = "fmt" then takeSubcommand progress .format arguments
        else if argument = "help" then .error (helpOn arguments)
        else .error (notSubcommand progress argument)

def Arguments.ofList (arguments : List String) : Except UsageError Arguments :=
  takeTop {} arguments

end DomainAtlas.CommandLine
