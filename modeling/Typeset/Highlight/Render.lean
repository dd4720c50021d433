import Typeset.Highlight.Terminal
import Typeset.Render

/-!
# Highlighted rendering

Items are written as in plain rendering, and a part that is marked with a token class is
written in the look of that class: its code in a palette is written where the part begins, and
where it ends the code of the part around it, or a reset when there is none. Other marks are
ignored.

## Main definitions

* `Write` : a text or an escape code.
* `highlightedWrites` : the writes for a list of items.
* `highlightDoc` : lays out a document and renders it highlighted.
-/

namespace Typeset

/-- Something written by highlighted rendering. -/
inductive Write where
  /-- A text of the document. -/
  | text (s : String)
  /-- An escape code. -/
  | code (s : String)
  deriving DecidableEq

namespace Write

/-- What is written. -/
def content : Write → String
  | text s | code s => s

end Write

/-- The writes for the items; `opened` holds the codes of the parts that have begun, the
innermost one first, and `pending` the level of the indentation that is due before the next
text. -/
def highlightedWrites (p : Palette) (sp : Spelling) (opened : List String) (pending : Nat) :
    List Item → Except HighlightError (List Write)
  | [] => return if opened.isEmpty then [] else [.code p.reset]
  | .text s :: items =>
    if s.isEmpty then highlightedWrites p sp opened pending items
    else do
      return .text (sp.indentation pending) :: .text s ::
        (← highlightedWrites p sp opened 0 items)
  | .line level :: items => do
    return .text sp.newline :: (← highlightedWrites p sp opened level items)
  | .push (.token c) :: items => do
    let code ← p.code c
    return .code code :: (← highlightedWrites p sp (code :: opened) pending items)
  | .pop (.token _) :: items =>
    match opened with
    | [] => throw .unopened
    | _ :: outer => do
      return .code (outer.headD p.reset) :: (← highlightedWrites p sp outer pending items)
  | .push (.label _) :: items => highlightedWrites p sp opened pending items
  | .pop (.label _) :: items => highlightedWrites p sp opened pending items

/-- The highlighted text of a list of items. -/
def highlightItems (p : Palette) (sp : Spelling) (items : List Item) :
    Except HighlightError String := do
  return String.join ((← highlightedWrites p sp [] 0 items).map Write.content)

/-- What can stop highlighted rendering. -/
inductive HighlightFailure where
  /-- The layout was stopped. -/
  | layout (e : LayoutError)
  /-- The highlighting was stopped. -/
  | highlight (e : HighlightError)

/-- The highlighted text of a layout. The items emitted before the layout was stopped are
highlighted first. -/
def highlightLayout (p : Palette) (sp : Spelling) (l : Layout) :
    Except HighlightFailure String :=
  match highlightItems p sp l.items, l.failure with
  | .error e, _ => .error (.highlight e)
  | .ok _, some e => .error (.layout e)
  | .ok s, none => .ok s

/-- The highlighted text of a document laid out with the given options. -/
def highlightDoc (o : Options) (p : Palette) (d : Doc) : Except HighlightFailure String :=
  highlightLayout p o.spelling (layout o.page d)

end Typeset
