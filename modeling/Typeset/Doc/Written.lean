import Typeset.Doc.Basic
import Typeset.Text.Quoted

/-!
# Documents as text

How a document is shown to a reader who debugs it: the constructors with their arguments,
texts quoted.
-/

namespace Typeset

open Text

/-- The name of a kind of line. -/
def LineKind.label : LineKind → String
  | .soft => "soft"
  | .empty => "empty"
  | .hard => "hard"
  | .literal => "literal"

/-- The kind of line with the given name. -/
def LineKind.ofLabel? (s : String) : Option LineKind :=
  [LineKind.soft, .empty, .hard, .literal].find? (·.label = s)

/-- How a mark is shown. -/
def Mark.written : Mark → String
  | .token c => "<Token." ++ c.label ++ ": " ++ toString c.number ++ ">"
  | .label s => quoted s

namespace Doc

mutual

/-- How a document is shown. -/
def written : Doc → String
  | nil => "NIL"
  | lit s => quoted s
  | text s => "Text(" ++ quoted s ++ ")"
  | line k => "Line(" ++ k.label ++ ")"
  | concat ds => "Concat(" ++ writtenAll ds ++ ")"
  | indent d => "Indent(" ++ written d ++ ")"
  | annotated d a => "Annotated(" ++ written d ++ ", " ++ a.written ++ ")"
  | group d true => "Group(" ++ written d ++ ", force_break=True)"
  | group d false => "Group(" ++ written d ++ ")"
  | alwaysBreak d => "AlwaysBreak(" ++ written d ++ ")"
  | fill ds => "Fill([" ++ writtenAll ds ++ "])"
  | conditional ds d => "ConditionalGroup([" ++ writtenBefore ds ++ written d ++ "])"
  | unknown s => "<" ++ s ++ ">"

/-- The documents of a list as they are shown, with commas between them. -/
def writtenAll : List Doc → String
  | [] => ""
  | [d] => written d
  | d :: e :: ds => written d ++ ", " ++ writtenAll (e :: ds)

/-- The documents of a list as they are shown, each with a comma after it. -/
def writtenBefore : List Doc → String
  | [] => ""
  | d :: ds => written d ++ ", " ++ writtenBefore ds

end

end Doc

end Typeset
