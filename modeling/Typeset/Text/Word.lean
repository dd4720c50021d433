import Typeset.Text.Blank

/-!
# Words, lines and widths

A text is divided into words at its runs of blanks and into lines at its line feeds. The
width of a text is its number of characters other than tabs: tabs stand only in verbatim
text, where they are not counted towards the width of a line.

## Main definitions

* `trim`, `words`, `unwords` : blanks at the ends, and runs of blanks inside.
* `lines` : the lines of a text; a text without line feed is one line.
* `width` : the columns that a text takes.
-/

namespace Typeset.Text

/-- The text without the blanks at its front. -/
def trimFront (cs : List Char) : List Char := cs.dropWhile isBlank

/-- The text without the blanks at its ends. -/
def trim (cs : List Char) : List Char := (trimFront (trimFront cs).reverse).reverse

/-- A word in progress as a list of words: none when it is still empty. -/
def finishWord (word : List Char) : List (List Char) := if word.isEmpty then [] else [word]

/-- The words of a text that continues the word in progress. -/
def wordsFrom (word : List Char) : List Char → List (List Char)
  | [] => finishWord word
  | c :: cs =>
    if isBlank c then finishWord word ++ wordsFrom [] cs
    else wordsFrom (word ++ [c]) cs

/-- The maximal runs of characters that are not blank. -/
def words (cs : List Char) : List (List Char) := wordsFrom [] cs

/-- The words of a text with one space between two of them. -/
def unwords (cs : List Char) : List Char := [' '].intercalate (words cs)

/-- The lines of a text, without the line feeds between them. -/
def lines : List Char → List (List Char)
  | [] => [[]]
  | c :: cs =>
    if c = '\n' then [] :: lines cs
    else match lines cs with
      | [] => [[c]]
      | l :: ls => (c :: l) :: ls

/-- The columns that a text takes: its characters other than tabs. -/
def width (cs : List Char) : Nat := cs.countP (· ≠ '\t')

/-- The part of a text before its first line feed. -/
def firstLine (cs : List Char) : List Char := cs.takeWhile (· ≠ '\n')

/-- The part of a text after its last line feed. -/
def lastLine (cs : List Char) : List Char := (cs.reverse.takeWhile (· ≠ '\n')).reverse

/-- Whether a text has a line feed. -/
def breaks (cs : List Char) : Bool := cs.contains '\n'

end Typeset.Text
