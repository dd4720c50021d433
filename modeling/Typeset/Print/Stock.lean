import Typeset.OperatorChain
import Typeset.Print.Rule

/-!
# Stock rules

Rules that suit any grammar. They print documents or, for a node without text, nothing;
where a document is needed to go on, nothing is an error.

## Main definitions

* `StockRule` : the rules by name.
* `StockRule.rule` : what a stock rule prints.
-/

namespace Typeset

/-- A rule that suits any grammar. -/
inductive StockRule where
  /-- The text of the node. -/
  | text
  /-- The children in brackets. -/
  | brackets
  /-- The children in a group, with lines between them. -/
  | spaced
  /-- Whether the node is a continuation. -/
  | probe
  /-- The first child. -/
  | first
  /-- The claiming kinds of the policy. -/
  | kinds
  /-- The operator chain at the node, packed. -/
  | chain
  deriving DecidableEq

namespace StockRule

/-- The name of a rule. -/
def label : StockRule → String
  | text => "text"
  | brackets => "brackets"
  | spaced => "spaced"
  | probe => "probe"
  | first => "first"
  | kinds => "kinds"
  | chain => "chain"

/-- The rule with a name. -/
def ofLabel? (s : String) : Option StockRule :=
  [text, brackets, spaced, probe, first, kinds, chain].find? (·.label = s)

/-- Prints the children of a path, all of which must give documents. -/
def childDocs (p : Path) (print : Below p → Printing (Option Doc)) : Printing (List Doc) := do
  Printing.all (Printing.need .noDocument) (← printChildren p print)

variable {κ : Type} [DecidableEq κ]

/-- The chain at a path. -/
def chainDoc (P : Policy κ) (operatorOf : Node → Except PrintError String) (p : Path)
    (print : Below p → Printing (Option Doc)) : Printing Doc := do
  match ← Printing.lift (P.flatten operatorOf p) with
  | .single => .fail .endless
  | .chain operands operators =>
    let printed ← Printing.all print operands
    let continuation ← Printing.lift (P.isContinuation p)
    let docs ← Printing.all (Printing.need .noDocument) printed
    let style : ChainStyle := { indentRest := !continuation, packed := true }
    Printing.lift ((Doc.chainOf style docs (operators.map .lit)).mapError .chain)

/-- What a stock rule prints under a policy. -/
def rule (P : Policy κ) (operatorOf : Node → Except PrintError String) :
    StockRule → Rule (Option Doc)
  | text => fun p _ => return p.node.text.map .lit
  | brackets => fun p print => do
    let docs ← childDocs p print
    return some (.cat [.lit "[", .cat docs, .lit "]"])
  | spaced => fun p print => do
    let docs ← childDocs p print
    return some (.grouped (.sepBy .softLine docs))
  | probe => fun p _ => do
    let continuation ← Printing.lift (P.isContinuation p)
    return some (.lit (if continuation then "yes" else "no"))
  | first => fun p print =>
    match p.children with
    | [] => .fail .missingChild
    | c :: _ => print c
  | kinds => fun _ _ =>
    let sorted := P.claiming.eraseDups.mergeSort fun a b => decide (a ≤ b)
    return some (.lit (String.intercalate "," sorted))
  | chain => fun p print => do
    return some (← chainDoc P operatorOf p print)

end StockRule

end Typeset
