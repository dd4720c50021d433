import Typeset.Log
import Typeset.Options

/-!
# Rendering

Items become text: a line break is written at once, its indentation only when a text that is
not empty follows on that line, so that blank lines carry no trailing white space. Marks
write nothing.

## Main definitions

* `plainWrites`, `renderItems` : the texts written for a list of items, and their join.
* `renderDoc` : lays out and renders a document.
-/

namespace Typeset

/-- How line breaks and indentation levels are spelled. -/
structure Spelling where
  /-- A line break. -/
  newline : String := "\n"
  /-- One indentation level. -/
  indentUnit : String := "  "

namespace Spelling

/-- The text of an indentation of some levels. -/
def indentation (sp : Spelling) (level : Nat) : String :=
  String.join (List.replicate level sp.indentUnit)

end Spelling

/-- The spelling that options ask for. -/
def Options.spelling (o : Options) : Spelling := { indentUnit := o.indentUnit }

/-- The texts written for the items; `pending` is the level of the indentation that is due
before the next text. -/
def plainWrites (sp : Spelling) (pending : Nat) : List Item → List String
  | [] => []
  | .text s :: items =>
    if s.isEmpty then plainWrites sp pending items
    else sp.indentation pending :: s :: plainWrites sp 0 items
  | .line level :: items => sp.newline :: plainWrites sp level items
  | .push _ :: items => plainWrites sp pending items
  | .pop _ :: items => plainWrites sp pending items

/-- The text of a list of items. -/
def renderItems (sp : Spelling) (items : List Item) : String :=
  String.join (plainWrites sp 0 items)

/-- The text of a document laid out and rendered with the given options. -/
def renderDoc (o : Options) (d : Doc) : Except LayoutError String := do
  return renderItems o.spelling (← (layout o.page d).result)

/-- The record of a text rendered with the given options. -/
def renderedRecord (o : Options) (s : String) : LogRecord :=
  .rendered (s.toList.count '\n' + 1) o.printWidth

end Typeset
