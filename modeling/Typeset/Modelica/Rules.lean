import Typeset.Modelica.Rules.Calls
import Typeset.Modelica.Rules.Classes
import Typeset.Modelica.Rules.Elements
import Typeset.Modelica.Rules.Expressions
import Typeset.Modelica.Rules.Modifications
import Typeset.Modelica.Rules.Statements

/-!
# The rules for Modelica

The table of all rules, by the kinds of nodes of the Modelica grammar.

## Main definitions

* `rules` : the rule table.
* `print` : the document of a tree.
-/

namespace Typeset.Modelica

open Rules

/-- The rules by kind. -/
def rules : RuleTable DocRule :=
  .ofList (terminals ++ classes ++ elements ++ modifications ++ statements ++ expressions ++
    calls)

/-- The document of a tree, and the record of its printing. -/
def print (n : Node) : Except PrintError (Doc × LogRecord) := printNode rules n

end Typeset.Modelica
