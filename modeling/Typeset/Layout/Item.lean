import Typeset.Doc.Written

/-!
# Layout items

What the layout emits: texts, line breaks with the indentation level of the line after them,
and the beginnings and ends of marks. How a level is spelled out is left to rendering.
-/

namespace Typeset

open Text

/-- A piece of a laid out document. -/
inductive Item where
  /-- A text. -/
  | text (s : String)
  /-- A line break and the indentation level of the line that it starts. -/
  | line (level : Nat)
  /-- The beginning of a part with a mark. -/
  | push (a : Mark)
  /-- The end of a part with a mark. -/
  | pop (a : Mark)
  deriving DecidableEq

namespace Item

/-- How an item is shown. -/
def written : Item → String
  | text s => quoted s
  | line level => "SLine(" ++ toString level ++ ")"
  | push a => "SAnnotationPush(" ++ a.written ++ ")"
  | pop a => "SAnnotationPop(" ++ a.written ++ ")"

/-- How a list of items is shown. -/
def writtenList (items : List Item) : String :=
  "[" ++ String.intercalate ", " (items.map written) ++ "]"

end Item

end Typeset
