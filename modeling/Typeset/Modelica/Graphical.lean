import Typeset.Text.Word

/-!
# Graphical annotations

Graphical annotations that are short are printed compactly from their source text: every run
of blanks becomes one space, there are no blanks inside of brackets or around equals signs,
and one space follows every comma.

## Main definitions

* `compactText` : a text in compact form.
* `graphicalNames` : the names of graphical primitives and their parts.
-/

namespace Typeset.Modelica

open Text

/-- Every run of blanks as one space; `after` says that a blank was just written. -/
def collapseBlanks (after : Bool) : List Char → List Char
  | [] => []
  | c :: cs =>
    if isBlank c then
      if after then collapseBlanks true cs else ' ' :: collapseBlanks true cs
    else c :: collapseBlanks false cs

/-- The text without the blanks that follow a mark; `after` says that the mark was just
passed. -/
def closeAfter (mark : Char) (after : Bool) : List Char → List Char
  | [] => []
  | c :: cs =>
    if after && isBlank c then closeAfter mark true cs
    else c :: closeAfter mark (c = mark) cs

/-- The text without the blanks that stand before a mark. -/
def closeBefore (mark : Char) (cs : List Char) : List Char :=
  (closeAfter mark false cs.reverse).reverse

/-- The text with one space after every mark. -/
def spaceAfter (mark : Char) (cs : List Char) : List Char :=
  (closeAfter mark false cs).flatMap fun c => if c = mark then [c, ' '] else [c]

/-- The compact form of a text. -/
def compact (cs : List Char) : List Char :=
  let cs := collapseBlanks false cs
  let cs := closeAfter '(' false cs
  let cs := closeBefore ')' cs
  let cs := closeAfter '{' false cs
  let cs := closeBefore '}' cs
  let cs := spaceAfter ',' cs
  let cs := closeAfter '=' false (closeBefore '=' cs)
  trim cs

/-- The compact form of a text. -/
def compactText (s : String) : String := String.ofList (compact s.toList)

/-- The longest compact form that is printed on one line. -/
def compactWidth : Nat := 70

/-- The graphical primitives whose arguments are printed in a context of their own. -/
def primitiveNames : List String :=
  ["Line", "Polygon", "Rectangle", "Ellipse", "Text", "Bitmap", "Placement"]

/-- The graphical primitives and their parts that are printed compactly. -/
def graphicalNames : List String :=
  ["Line", "Polygon", "Rectangle", "Ellipse", "Text", "Bitmap", "Placement",
   "Transformation", "IconMap", "DiagramMap", "transformation", "extent", "origin", "points",
   "color", "lineColor", "fillColor", "pattern", "fillPattern", "lineThickness", "rotation"]

end Typeset.Modelica
