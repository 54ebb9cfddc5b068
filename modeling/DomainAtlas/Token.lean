import DomainAtlas.Keyword
import DomainAtlas.Span
/-!
# Tokens

What a source is made of. Tokens carry meaning; trivia (blanks, newlines, comments) only keep tokens
apart. A lexeme is either of them with the span of its text.
-/
set_option autoImplicit false

namespace DomainAtlas

inductive Symbol
  | doubleArrow | arrow | leftArrow | dash | equals | lessThan | greaterThan | leftBrace | rightBrace
  | leftBracket | rightBracket | leftParen | rightParen | semicolon | comma
  deriving DecidableEq, Repr

namespace Symbol

/-- All symbols; one that begins with another stands before it. -/
def all : List Symbol :=
  [doubleArrow, arrow, leftArrow, dash, equals, lessThan, greaterThan, leftBrace, rightBrace,
    leftBracket, rightBracket, leftParen, rightParen, semicolon, comma]

def text : Symbol → String
  | doubleArrow => "<->"
  | arrow => "->"
  | leftArrow => "<-"
  | dash => "-"
  | equals => "="
  | lessThan => "<"
  | greaterThan => ">"
  | leftBrace => "\x7b"
  | rightBrace => "\x7d"
  | leftBracket => "["
  | rightBracket => "]"
  | leftParen => "("
  | rightParen => ")"
  | semicolon => ";"
  | comma => ","

/-- The longest symbol at the front of `cs`. -/
def atFront? (cs : List Char) : Option Symbol :=
  all.find? fun symbol => symbol.text.toList.isPrefixOf cs

theorem append_drop_of_atFront? {cs : List Char} {symbol : Symbol} (h : atFront? cs = some symbol) :
    symbol.text.toList ++ cs.drop symbol.text.toList.length = cs := by
  have hPrefix := List.find?_some h
  exact List.prefix_iff_eq_append.mp (List.isPrefixOf_iff_prefix.mp hPrefix)

theorem length_text_pos (symbol : Symbol) : 0 < symbol.text.toList.length := by
  cases symbol <;> decide

end Symbol

inductive Token
  | keyword (keyword : Keyword)
  /-- A name, without the caret that may stand before it. -/
  | name (text : String)
  | string (value : String)
  | symbol (symbol : Symbol)
  deriving DecidableEq, Repr

def Token.text : Token → String
  | .keyword k => k.text
  | .name text => text
  | .string value => "\"" ++ value ++ "\""
  | .symbol s => s.text

inductive Trivia
  /-- Blanks other than newlines. -/
  | blank
  | newline
  /-- A comment from two slashes to the end of the line: the text after the slashes. -/
  | lineComment (text : String)
  /-- A comment between a slash with a star and a star with a slash: the text between them. -/
  | blockComment (text : String)
  deriving DecidableEq, Repr

inductive Content
  | token (token : Token)
  | trivia (trivia : Trivia)
  deriving DecidableEq, Repr

abbrev Lexeme := Placed Content

/-- What a list of items to be read may hold: tokens, and trivia, which are passed over. -/
class Readable (ι : Type) where
  token? : ι → Option Token

instance : Readable Token where
  token? := some

instance : Readable Content where
  token?
    | .token token => some token
    | .trivia _ => none

section

variable {ι : Type} [Readable ι]

def Placed.token? (item : Placed ι) : Option (Placed Token) :=
  (Readable.token? item.value).map fun token => ⟨token, item.span⟩

def tokensOf (items : List (Placed ι)) : List (Placed Token) :=
  items.filterMap Placed.token?

/-- The items from the first token on. -/
def skipTrivia (items : List ι) : List ι :=
  items.dropWhile fun item => (Readable.token? item).isNone

end

/-! Tokens alone are items without trivia. -/

@[simp] theorem token?_token (t : Token) : Readable.token? t = some t :=
  rfl

@[simp] theorem tokensOf_tokens (tokens : List (Placed Token)) : tokensOf tokens = tokens :=
  List.filterMap_some

@[simp] theorem skipTrivia_tokens (tokens : List Token) : skipTrivia tokens = tokens := by
  cases tokens <;> rfl

end DomainAtlas
