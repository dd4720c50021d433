import Typeset.Doc.Basic

/-!
# Building documents

The combinators by which documents are put together. Each of them takes the empty plain text
for the empty document, and a concatenation of a single part is that part.

## Main definitions

* `Doc.cat`, `Doc.sepBy` : parts one after the other, with or without a separator.
* `Doc.grouped`, `Doc.nested`, `Doc.annotate`, `Doc.broken` : a single body.
* `Doc.filled`, `Doc.fillSep`, `Doc.commaSeparated` : lists packed onto lines.
* `Doc.breakGroup` : the document with its outermost group forced to break.
* `Doc.hug` : an operand that may stay on the line of its operator.
-/

namespace Typeset.Doc

/-- A space when flat, a line break when broken. -/
def softLine : Doc := line .soft

/-- Nothing when flat, a line break when broken. -/
def emptyLine : Doc := line .empty

/-- A line break followed by the indentation. -/
def hardLine : Doc := line .hard

/-- A line break without indentation. -/
def literalLine : Doc := line .literal

/-- The document, where the empty plain text is the empty document. -/
def tidy : Doc → Doc
  | lit s => if s.isEmpty then nil else lit s
  | d => d

/-- Parts one after the other. -/
def cat : List Doc → Doc
  | [] => nil
  | [d] => d.tidy
  | ds => concat (ds.map tidy)

/-- Parts one after the other with a separator between any two. -/
def sepBy (separator : Doc) (ds : List Doc) : Doc := cat (ds.intersperse separator)

/-- The body on one line if it fits. -/
def grouped (d : Doc) : Doc := group d.tidy false

/-- The body in a group that is always broken; the groups around it are not affected. -/
def forcedGroup (d : Doc) : Doc := group d.tidy true

/-- The body one indentation level deeper. -/
def nested (d : Doc) : Doc := indent d.tidy

/-- The body with a mark on it. -/
def annotate (a : Mark) (d : Doc) : Doc := annotated d.tidy a

/-- The body broken, with all groups around it. -/
def broken (d : Doc) : Doc := alwaysBreak d.tidy

/-- Contents and separators in turn, packed onto lines. -/
def filled (ds : List Doc) : Doc := fill (ds.map tidy)

/-- Contents packed onto lines, separated by soft lines. -/
def fillSep (ds : List Doc) : Doc := fill ((ds.map tidy).intersperse softLine)

/-- The first candidate that fits flat, else the last one broken. -/
def firstFitting (front : List Doc) (fallback : Doc) : Doc :=
  conditional (front.map tidy) fallback.tidy

/-- A comma and a soft line. -/
def commaLine : Doc := cat [lit ",", softLine]

/-- Documents with commas between them; `packed` puts as many on a line as fit. -/
def commaSeparated (packed : Bool) (ds : List Doc) : Doc :=
  if packed then filled (ds.intersperse commaLine) else sepBy commaLine ds

mutual

/-- The document with its outermost group forced to break. In a concatenation this is the
group at its end, so that a call breaks its argument list. -/
def breakGroup : Doc → Doc
  | group d _ => group d true
  | annotated d a => annotated (breakGroup d) a
  | concat ds => concat (breakLast ds)
  | d => d

/-- The documents with the outermost group of the last one forced to break. -/
def breakLast : List Doc → List Doc
  | [] => []
  | [d] => [breakGroup d]
  | d :: e :: ds => d :: breakLast (e :: ds)

end

/-- The layouts of an operand that can hug its operator: all flat; on the line of the
operator with its own group broken; after the separator. -/
def hug (separator operand : Doc) : Doc :=
  firstFitting [cat [lit " ", operand], cat [lit " ", operand.breakGroup]]
    (cat [separator, operand])

end Typeset.Doc
