import Typeset.Log
import Typeset.Print.Basic
import Typeset.Print.RuleTable

/-!
# Printing trees by rules

A tree is printed by the rules for the kinds of its nodes. A rule gets the path of its node
and prints whatever lies below it through a function that it is given. Since only paths to
smaller nodes can be printed in this way, printing ends.

## Main definitions

* `Rule` : how a node is printed, given how everything below it is.
* `printPath`, `printNode` : prints a path by a table of rules, and a whole tree.
-/

namespace Typeset

/-- How a node is printed: `print` prints what lies below it. -/
abbrev Rule (ρ : Type) := (p : Path) → (print : Below p → Printing ρ) → Printing ρ

/-- Prints the node of a path by the rule for its kind. -/
def printPath {ρ : Type} (rules : RuleTable (Rule ρ)) (p : Path) : Printing ρ :=
  match rules.get? p.node.kind with
  | none => .fail (.noRule p.node.kind p.node.span)
  | some rule => do
    Printing.tick
    rule p fun q => printPath rules q.1
termination_by p.node.size
decreasing_by exact q.2

/-- Prints a tree, and records how many nodes were printed. -/
def printNode {ρ : Type} (rules : RuleTable (Rule ρ)) (n : Node) :
    Except PrintError (ρ × LogRecord) :=
  match printPath rules (.root n) with
  | .error e => .error e
  | .ok (result, count) => .ok (result, .printed count n.kind)

/-- Prints the children of a path. -/
def printChildren {ρ : Type} (p : Path) (print : Below p → Printing ρ) : Printing (List ρ) :=
  Printing.all print p.children

end Typeset
