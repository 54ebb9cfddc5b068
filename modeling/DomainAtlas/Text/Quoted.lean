/-!
# Quoted text

The written form of free text: between double quotes, on one line, with a backslash before what could
not stand there. `quote` writes that form. `readBody` reads what follows the opening quote.
-/
set_option autoImplicit false

namespace DomainAtlas.Text.Quoted

def escape (c : Char) : List Char :=
  if c = '\\' then ['\\', '\\']
  else if c = '"' then ['\\', '"']
  else if c = '\n' then ['\\', 'n']
  else if c = '\r' then ['\\', 'r']
  else if c = '\t' then ['\\', 't']
  else [c]

/-- The character meant by the one after a backslash. -/
def unescape? (c : Char) : Option Char :=
  if c = '\\' ∨ c = '"' ∨ c = '\'' then some c
  else if c = 'n' then some '\n'
  else if c = 'r' then some '\r'
  else if c = 't' then some '\t'
  else none

def body (cs : List Char) : List Char :=
  cs.flatMap escape

def quoteChars (cs : List Char) : List Char :=
  '"' :: (body cs ++ ['"'])

def quote (text : String) : String :=
  String.ofList (quoteChars text.toList)

/-- How the text after an opening quote goes on. -/
inductive Body
  /-- The quote closes: the value, how it was written (closing quote included), what follows. -/
  | closed (value : List Char) (written : List Char) (rest : List Char)
  /-- The line or the text ends first. -/
  | unclosed (written : List Char) (rest : List Char)
  /-- A backslash stands before no character that it may stand before; `rest` follows the backslash. -/
  | badEscape (written : List Char) (rest : List Char)
  deriving DecidableEq, Repr

/-- The same continuation with one more character, written as `slice`, in front. -/
def Body.push (c : Char) (slice : List Char) : Body → Body
  | .closed value written rest => .closed (c :: value) (slice ++ written) rest
  | .unclosed written rest => .unclosed (slice ++ written) rest
  | .badEscape written rest => .badEscape (slice ++ written) rest

def readBody : List Char → Body
  | [] => .unclosed [] []
  | c :: cs =>
    if c = '"' then .closed [] ['"'] cs
    else if c = '\\' then
      match cs with
      | [] => .badEscape [] []
      | e :: rest =>
        match unescape? e with
        | some value => (readBody rest).push value ['\\', e]
        | none => .badEscape [] (e :: rest)
    else if c = '\n' ∨ c = '\r' then .unclosed [] (c :: cs)
    else (readBody cs).push c [c]

/-- All the characters that a continuation accounts for. -/
def Body.text : Body → List Char
  | .closed _ written rest => written ++ rest
  | .unclosed written rest => written ++ rest
  | .badEscape written rest => written ++ '\\' :: rest

@[simp] theorem Body.text_closed (value written rest : List Char) :
    (Body.closed value written rest).text = written ++ rest := rfl

@[simp] theorem Body.text_unclosed (written rest : List Char) :
    (Body.unclosed written rest).text = written ++ rest := rfl

@[simp] theorem Body.text_badEscape (written rest : List Char) :
    (Body.badEscape written rest).text = written ++ '\\' :: rest := rfl

@[simp] theorem Body.text_push (c : Char) (slice : List Char) (b : Body) :
    (b.push c slice).text = slice ++ b.text := by
  cases b <;> simp [Body.push]

/-- Reading loses no character. -/
theorem text_readBody (cs : List Char) : (readBody cs).text = cs := by
  fun_induction readBody cs <;> simp_all

end DomainAtlas.Text.Quoted
