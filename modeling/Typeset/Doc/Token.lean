import Typeset.Doc.Combinators
import Typeset.Text.Alphabetic

/-!
# Tokens as documents

Texts that are marked with the token class in which they are highlighted.
-/

namespace Typeset.Doc

open Text

/-- A text as a token of a class. -/
def token (c : TokenClass) (s : String) : Doc := annotate (.token c) (lit s)

/-- A keyword. -/
def keyword (s : String) : Doc := token .keyword s

/-- An operator; one that is spelled as a word has a class of its own. -/
def operator (s : String) : Doc := token (if isWord s then .operatorWord else .operator) s

end Typeset.Doc
