import Typeset.Doc.Chain
import Typeset.Tree.Node

/-!
# Printing errors

What can keep a tree from being printed as a document.
-/

namespace Typeset

open Text

/-- What can keep a tree from being printed. -/
inductive PrintError where
  /-- No rule is known for a kind of node. -/
  | noRule (kind : String) (span : Option Span)
  /-- A conditional expression has no value. -/
  | noValueBranch (kind : String) (span : Option Span)
  /-- A rule needs a child that the node does not have. -/
  | missingChild
  /-- A rule needs the text of a node that has none. -/
  | missingText
  /-- A part of a document was not printed. -/
  | noDocument
  /-- The operands and operators of a chain do not match. -/
  | chain (mismatch : ChainMismatch)
  /-- A rule asks for the node that it prints. -/
  | endless
  deriving DecidableEq

namespace PrintError

/-- A message with the span of the node that it is about. -/
def located (message : String) (span : Option Span) : String :=
  message ++ span.elim "" fun s => " at " ++ s.message

/-- The wording of an error. -/
def message : PrintError → String
  | noRule kind span => located ("No translation rule for node kind " ++ quoted kind) span
  | noValueBranch _ span => located "Conditional expression without a value branch" span
  | missingChild => "Missing child"
  | missingText => "Missing text"
  | noDocument => "None"
  | chain mismatch => mismatch.message
  | endless => "Endless rule"

end PrintError

end Typeset
