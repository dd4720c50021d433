import Typeset.Highlight.TokenClass

/-!
# Styles

A style gives every token class a look: colours, and whether it is bold, italic or underlined. It
knows the classes by their dotted names. A style is given by itself, or by a name under which a
catalogue of styles has it. Styles and the catalogue come from outside.

## Main definitions

* `Look`, `Style`, `Catalogue` : looks, styles, and styles by name.
* `StyleChoice.resolve` : the style that is asked for.
-/

namespace Typeset

/-- How a token class is shown. A colour is spelled as the terminal understands it; an empty
spelling is no colour. -/
structure Look where
  /-- The colour of the text. -/
  color : Option String := none
  /-- The colour behind the text. -/
  background : Option String := none
  bold : Bool := false
  italic : Bool := false
  underline : Bool := false

/-- A look for the dotted name of every token class. -/
abbrev Style := String → Look

/-- The styles that have names. -/
abbrev Catalogue := String → Option Style

/-- What can go wrong while highlighting. -/
inductive HighlightError where
  /-- No style has the name. -/
  | unknownStyle (name : String)
  /-- The terminal has no code of the name. -/
  | noCode (name : String)
  /-- A part ends that did not begin. -/
  | unopened

/-- The name of the style that is used when none is asked for. -/
def Style.defaultName : String := "monokai"

/-- How a style is asked for. -/
inductive StyleChoice where
  /-- The style that is used when none is asked for. -/
  | unspecified
  /-- A style with a name. -/
  | named (name : String)
  /-- A style given by itself. -/
  | given (style : Style)

/-- The style with a name, which must exist. -/
def Catalogue.find (styles : Catalogue) (name : String) : Except HighlightError Style :=
  match styles name with
  | some style => .ok style
  | none => .error (.unknownStyle name)

/-- The style that is asked for. -/
def StyleChoice.resolve (styles : Catalogue) : StyleChoice → Except HighlightError Style
  | unspecified => styles.find Style.defaultName
  | named name => styles.find name
  | given style => .ok style

end Typeset
