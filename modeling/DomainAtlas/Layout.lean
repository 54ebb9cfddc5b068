/-!
# Layout

The shape of a written document: lines, and blocks in braces that hold property lines first and child
elements after them. A blank line stands before each child but a first thing in its block.
-/
set_option autoImplicit false

namespace DomainAtlas

inductive Layout
  | line (text : String)
  | block (header : String) (properties : List String) (children : List Layout)

inductive Line
  | blank
  | text (depth : Nat) (content : String)
  deriving DecidableEq, Repr

namespace Line

def render (width : Nat) : Line → String
  | blank => "\n"
  | text depth content => String.ofList (List.replicate (depth * width) ' ') ++ content ++ "\n"

end Line

namespace Layout

mutual

def lines (depth : Nat) : Layout → List Line
  | .line text => [.text depth text]
  | .block header properties children =>
    .text depth (header ++ " \x7b")
      :: (properties.map (Line.text (depth + 1)) ++ childLines (depth + 1) properties.isEmpty children
        ++ [.text depth "\x7d"])

/-- The lines of elements that follow one another; `first` tells that nothing stands before them. -/
def childLines (depth : Nat) (first : Bool) : List Layout → List Line
  | [] => []
  | child :: children =>
    (if first then [] else [.blank]) ++ lines depth child ++ childLines depth false children

end

def render (width : Nat) (elements : List Layout) : String :=
  String.join ((childLines 0 true elements).map (Line.render width))

end Layout

end DomainAtlas
