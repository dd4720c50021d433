import Typeset.Layout.Command
import Typeset.Text.Word

/-!
# Fitting

Whether commands fit in the columns that remain. Measuring stops with success at the first
line break printed broken, since whatever follows it starts on a new line; a text that holds
a line feed ends the line in the same way. A line that cannot be printed flat fails where it
is met flat. Commands that wait on the layout stack stand after the measured ones, so that
text trailing on the same line is counted.

## Main definitions

* `LayoutError` : a document of an unknown sort was reached.
* `fits` : whether the first line of the commands has at most the given width.
-/

namespace Typeset

open Text

/-- A document of an unknown sort was reached. -/
structure LayoutError where
  /-- The sort of the document. -/
  sort : String

/-- The wording of the error. -/
def LayoutError.message (e : LayoutError) : String := "Unknown doc type " ++ e.sort

/-- Whether the commands, the next one first, fit in the remaining columns. With `mustBeFlat`
a content that is forced to break makes the check fail. -/
def fits (mustBeFlat : Bool) (remaining : Int) : List Command → Except LayoutError Bool
  | [] => .ok (0 ≤ remaining)
  | ⟨level, mode, content⟩ :: cs =>
    if remaining < 0 then .ok false
    else match content with
      | .doc .nil => fits mustBeFlat remaining cs
      | .endMark _ => fits mustBeFlat remaining cs
      | .doc (.lit s) | .doc (.text s) =>
        let left := remaining - width (firstLine s.toList)
        if breaks s.toList then .ok (0 ≤ left) else fits mustBeFlat left cs
      | .doc (.concat ds) | .doc (.fill ds) =>
        fits mustBeFlat remaining (Command.printAll level mode ds ++ cs)
      | .fillRest separator item rest =>
        fits mustBeFlat remaining
          (.print level mode item :: (fillRestCommands level mode (!separator) rest ++ cs))
      | .doc (.indent d) => fits mustBeFlat remaining (.print (level + 1) mode d :: cs)
      | .doc (.annotated d _) => fits mustBeFlat remaining (.print level mode d :: cs)
      | .doc (.alwaysBreak d) =>
        if mustBeFlat then .ok false
        else fits mustBeFlat remaining (.print level .broken d :: cs)
      | .doc (.group d forced) =>
        if mustBeFlat && forced then .ok false
        else fits mustBeFlat remaining
          (.print level (if forced then .broken else mode) d :: cs)
      | .doc (.conditional front fallback) =>
        match mode with
        | .broken => fits mustBeFlat remaining (.print level mode fallback :: cs)
        | .flat =>
          fits mustBeFlat remaining (.print level mode (Doc.flatCandidate front fallback) :: cs)
      | .doc (.line kind) =>
        match mode with
        | .broken => .ok true
        | .flat =>
          match kind with
          | .hard | .literal => .ok false
          | .soft => fits mustBeFlat (remaining - 1) cs
          | .empty => fits mustBeFlat remaining cs
      | .doc (.unknown sort) => .error ⟨sort⟩
termination_by cs => stackWeight cs
decreasing_by
  all_goals simp only [stackWeight_cons, stackWeight_append, Command.weight_doc,
    Command.weight_endMark, Command.weight_fillRest, Command.weight_print, Doc.weight]
  iterate 4 omega
  · have := stackWeight_printAll_le level mode ds; omega
  · have := stackWeight_printAll_le level mode ds; omega
  · have := stackWeight_fillRestCommands_le level mode (!separator) rest; omega
  iterate 5 omega
  · have := Doc.weight_lt_of_mem_candidates (Doc.flatCandidate_mem front fallback)
    simp only [Doc.weight] at this; omega
  iterate 2 omega

/-- Whether a document on its own fits in the remaining columns. -/
def fitsDoc (mode : Mode) (remaining : Int) (d : Doc) : Except LayoutError Bool :=
  fits false remaining [.print 0 mode d]

end Typeset
