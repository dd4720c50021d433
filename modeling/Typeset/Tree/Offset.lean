import Typeset.Text.Word
import Typeset.Tree.Node

/-!
# Offsets in the text of a node

A position of the source, given by row and column, becomes an offset in the text of a node
whose own span is known.

## Main definitions

* `offsetIn` : the offset of a position in a text that starts at another position.
* `Placed` : a node whose span and text are known.
-/

namespace Typeset

open Text

/-- The number of characters of some lines, each with the line feed that ends it. -/
def lengthOfLines : List (List Char) → Nat
  | [] => 0
  | l :: ls => l.length + 1 + lengthOfLines ls

/-- The offset of a position in a text that starts at the position `start`. Only the first
line of the text is shifted by the column of its start. -/
def offsetIn (start : Position) (cs : List Char) (p : Position) : Int :=
  let row := p.row - start.row
  let column := if row = 0 then p.column - start.column else p.column
  lengthOfLines (cutBefore (lines cs) row) + column

/-- The span and the text of a node, both known. -/
structure Placed where
  /-- The span. -/
  span : Span
  /-- The text. -/
  text : List Char

namespace Placed

/-- The offset of a position in the text. -/
def offset (n : Placed) (p : Position) : Int := offsetIn n.span.start n.text p

end Placed

/-- The span and the text of a node if both are known. -/
def Node.placed? (n : Node) : Option Placed := do
  let span ← n.span
  let text ← n.text
  return ⟨span, text.toList⟩

end Typeset
