import Typeset.Modelica.Graphical
import Typeset.Modelica.Policy

/-!
# Places in a Modelica tree

Questions that the rules ask about a place: which keywords stand in front of a child, whether
the place is inside of an annotation, and whether an operand can hug its operator.

## Main definitions

* `leadingText` : the words of a node that stand in front of one of its children.
* `underAnnotationClause`, `inGraphicalPrimitive` : the annotations around a place.
* `isHuggable` : operands that bring brackets of their own.
-/

namespace Typeset.Modelica

open Text

/-- The text of a node that stands in front of a child. -/
def textBefore (n child : Node) : List Char :=
  match n.placed?, child.placed? with
  | some outer, some inner => cutBefore outer.text (outer.offset inner.span.start)
  | _, _ =>
    let text := n.textOrEmpty.toList
    text.take ((firstIndex? child.textOrEmpty.toList text).getD 0)

/-- The words of a node that stand in front of a child, such as the `parameter` in
`parameter Real x`. -/
def leadingText (n : Node) (child : Option Node) : String :=
  child.elim "" fun c => String.ofList (unwords (textBefore n c))

/-- The words of a node in front of its first child. -/
def leadingWords (n : Node) : String := leadingText n n.children.head?

/-- Whether a node above the place is an annotation. -/
def underAnnotationClause (p : Path) : Bool := p.anyAbove (·.kind = "annotation_clause")

/-- The name that a modification of an element modifies. -/
def modifiedName? (n : Node) : Option String :=
  if n.kind = "element_modification" then
    some ((n.firstChild? ["name"]).elim "" Node.textOrEmpty)
  else none

/-- Whether a node modifies a graphical primitive. -/
def modifiesPrimitive (n : Node) : Bool := (modifiedName? n).any primitiveNames.contains

/-- Whether the place is an argument list of an annotation or of a graphical primitive. -/
def inGraphicalPrimitive (p : Path) : Bool :=
  match p.above with
  | [] => false
  | parent :: above =>
    if parent.node.kind = "annotation_clause" then true
    else if parent.node.kind = "modification" then
      match above with
      | [] => modifiesPrimitive parent.node
      | owner :: _ => modifiesPrimitive owner.node
    else modifiesPrimitive parent.node

/-- The kinds of operands that bring brackets of their own. -/
def huggableKinds : List String :=
  ["function_application", "parenthesized_expression", "array_constructor",
   "array_concatenation"]

/-- Whether an operand can hug its operator. -/
def isHuggable (p : Path) : Bool := huggableKinds.contains (policy.unwrap p).node.kind

end Typeset.Modelica
