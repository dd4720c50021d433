import Typeset.Doc.Token
import Typeset.Modelica.Context
import Typeset.Print.Rule

/-!
# Parts of Modelica rules

Most rules print some of the children of a node, each in surroundings that depend on its
kind. A selection lists the kinds with their surroundings; children of other kinds are left
out.

## Main definitions

* `textOf`, `space` : leaves of the printed documents.
* `Selection`, `select` : children by kind.
* `spaceBefore`, `lineIndented`, `hardIndented` : common surroundings.
-/

namespace Typeset.Modelica

open Doc Text

/-- A rule that prints documents. -/
abbrev DocRule := Rule Doc

/-- The text of a node. -/
def textOf (n : Node) : Doc := lit n.textOrEmpty

/-- A space. -/
def space : Doc := lit " "

/-- Whether a node is an expression as statements hold it. -/
def isExpression (n : Node) : Bool := n.kind = "expression" || n.kind = "simple_expression"

/-- Kinds of children with their surroundings; the first entry that lists a kind counts. -/
abbrev Selection := List (List String × (Doc → List Doc))

/-- The surroundings of a kind. -/
def Selection.surroundings? (sel : Selection) (kind : String) : Option (Doc → List Doc) :=
  (sel.find? fun entry => entry.1.contains kind).map (·.2)

/-- Prints a child in the surroundings of its kind, or leaves it out. -/
def selectChild (sel : Selection) {p : Path} (print : Below p → Printing Doc) (c : Below p) :
    Printing (List Doc) :=
  match sel.surroundings? c.1.node.kind with
  | none => return []
  | some surround => return surround (← print c)

/-- Prints the selected children. -/
def select (sel : Selection) (p : Path) (print : Below p → Printing Doc) :
    Printing (List Doc) :=
  Printing.collect (selectChild sel print) p.children

/-- A document by itself. -/
def alone (d : Doc) : List Doc := [d]

/-- A document after a space. -/
def spaceBefore (d : Doc) : List Doc := [space, d]

/-- A document before a space. -/
def spaceAfterDoc (d : Doc) : List Doc := [d, space]

/-- A document on the next line if the line breaks, indented. -/
def lineIndented (d : Doc) : List Doc := [nested (cat [softLine, d])]

/-- A document on the next line, indented. -/
def hardIndented (d : Doc) : List Doc := [nested (cat [hardLine, d])]

/-- A document on the next line. -/
def hardBefore (d : Doc) : List Doc := [hardLine, d]

/-- Prints the children with spaces between them. -/
def spacedChildren (p : Path) (print : Below p → Printing Doc) : Printing Doc :=
  return sepBy space (← printChildren p print)

/-- Words in front of the other parts, as a keyword; none if there are no words. -/
def leadingParts (words : String) : List Doc :=
  if words.isEmpty then [] else [keyword words, space]

/-- The brace that opens an array. -/
abbrev openingBrace : String := "\x7b"

/-- The brace that closes an array. -/
abbrev closingBrace : String := "\x7d"

/-- A document between two texts, in a group. -/
def bracketed (opening : String) (body : Doc) (closing : String) : Doc :=
  grouped (cat [lit opening, body, lit closing])

end Typeset.Modelica
