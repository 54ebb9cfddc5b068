import DomainAtlas.Token
/-!
# What a reader expects

The things that a place in the grammar may ask for. The innermost one is named after "expected", the
outermost after "while parsing".
-/
set_option autoImplicit false

namespace DomainAtlas.Grammar

inductive Expected
  | symbol (symbol : Symbol)
  | keyword (keyword : Keyword)
  | name
  | attributeName
  | word
  | string
  | collectionKind
  | knowledgeLevel
  | contextType
  | symmetricKind
  | symmetricMark
  | upstreamPattern
  | downstreamPattern
  | mapState
  | type
  | endOfType
  | sameSymmetricKind
  | downstreamContext
  | upstreamContext
  | relationship
  | contextMap
  | boundedContext
  | declaration
  deriving DecidableEq, Repr

def Expected.text : Expected → String
  | .symbol s => "`" ++ s.text ++ "`"
  | .keyword k => k.text
  | .name => "name"
  | .attributeName => "attribute name"
  | .word => "word"
  | .string => "string literal"
  | .collectionKind => "`List` or `Set`"
  | .knowledgeLevel => "`META` or `CONCRETE`"
  | .contextType => "`FEATURE`, `APPLICATION`, `SYSTEM` or `TEAM`"
  | .symmetricKind => "`Partnership` or `SharedKernel`"
  | .symmetricMark => "`SK` or `P`"
  | .upstreamPattern => "`OHS` or `PL`"
  | .downstreamPattern => "`ACL` or `CF`"
  | .mapState => "`AS_IS` or `TO_BE`"
  | .type => "type"
  | .endOfType => "end of type"
  | .sameSymmetricKind => "the same relationship kind on both sides"
  | .downstreamContext => "downstream context after `->`"
  | .upstreamContext => "upstream context after `<-`"
  | .relationship => "relationship"
  | .contextMap => "context map"
  | .boundedContext => "bounded context"
  | .declaration => "`ContextMap` or `BoundedContext`"

end DomainAtlas.Grammar
