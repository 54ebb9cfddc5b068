import DomainAtlas.Token.Lexer
import DomainAtlas.Document
import DomainAtlas.Model.OfDeclarations
/-!
# From source texts

A source is read in stages: lexemes, declarations, the check for a second context map, the model. The
first stage that finds faults gives all its diagnostics.
-/
set_option autoImplicit false

namespace DomainAtlas

def Model.ofSource (source : String) : Except ParseError Model := do
  let lexemes ← lexemesOf source
  let declarations ← documentOf lexemes
  return Model.ofDeclarations declarations

def TypeRef.ofText (text : String) : Except ParseError TypeRef := do
  let lexemes ← lexemesOf text
  typeRefOf lexemes

end DomainAtlas
