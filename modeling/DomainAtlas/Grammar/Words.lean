import DomainAtlas.Grammar.Reader
/-!
# Single tokens and lists of them
-/
set_option autoImplicit false

namespace DomainAtlas.Grammar

open Reader

variable {ι : Type} [Readable ι]

def symbol (s : Symbol) : Reader ι Unit :=
  token (.symbol s) fun t => if t = .symbol s then some () else none

def keyword (k : Keyword) : Reader ι Unit :=
  token (.keyword k) fun t => if t = .keyword k then some () else none

def keywordValue {α : Type} (expected : Expected) (value? : Keyword → Option α) : Reader ι α :=
  token expected fun
    | .keyword k => value? k
    | _ => none

/-- A name; one that is spelt like a keyword is written with a caret. -/
def name : Reader ι String :=
  token .name fun
    | .name text => some text
    | _ => none

/-- The name of an attribute, a parameter or an operation, which may be a keyword in lower case. -/
def attributeName : Reader ι String :=
  token .attributeName fun
    | .name text => some text
    | .keyword k => if k.isAttributeName then some k.text else none
    | _ => none

def word : Reader ι String :=
  token .word fun
    | .name text => some text
    | .keyword k => some k.text
    | _ => none

def string : Reader ι String :=
  token .string fun
    | .string value => some value
    | _ => none

def comma : Reader ι Unit :=
  symbol .comma

def names : Reader ι (List String) :=
  separated comma name

def strings : Reader ι (List String) :=
  separated comma string

def block {α : Type} (item : Reader ι α) : Reader ι (List α) := do
  symbol .leftBrace
  let items ← many item
  symbol .rightBrace
  return items

def optionalBlock {α : Type} (item : Reader ι α) : Reader ι (List α) :=
  orEmpty (block item)

/-- A keyword, an equals sign and a value; the keyword decides. -/
def property {α : Type} (k : Keyword) (value : Reader ι α) : Reader ι α := do
  keyword k
  commit do
    symbol .equals
    value

end DomainAtlas.Grammar
