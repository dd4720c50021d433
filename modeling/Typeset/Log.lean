import Typeset.Text.Quoted

/-!
# Log records

What printing and rendering record about their work.
-/

namespace Typeset

open Text

/-- A record of work done. -/
inductive LogRecord where
  /-- A document was rendered. -/
  | rendered (lines width : Nat)
  /-- A tree was printed as a document. -/
  | printed (nodes : Nat) (kind : String)
  /-- A tree that was read has error nodes or missing nodes. -/
  | damaged (errors missing : Nat)
  deriving DecidableEq

/-- The wording of a record. -/
def LogRecord.message : LogRecord → String
  | rendered lines width =>
    "Rendered " ++ toString lines ++ " line(s) at print_width=" ++ toString width
  | printed nodes kind => "Translated " ++ toString nodes ++ " node(s) under " ++ quoted kind
  | damaged errors missing =>
    "Tree has " ++ toString errors ++ " error and " ++ toString missing ++ " missing node(s)"

end Typeset
