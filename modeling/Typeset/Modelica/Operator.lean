import Typeset.Text.Search
import Typeset.Tree.Offset
import Typeset.Print.Error

/-!
# Operators of binary expressions

The tree has no nodes for operators: the operator of a binary expression is what stands in
its text between its operands. It is found by the spans of the operands if all of them are
known, else by searching for the texts of the operands, and failing that by searching for
any known operator.

## Main definitions

* `Precedence`, `Precedence.ofOperator?` : precedence classes.
* `operatorOf` : the operator of a binary expression.
* `precedenceOf` : its precedence class.
-/

namespace Typeset.Modelica

open Text

/-- A precedence class of binary operators, from loose to tight. -/
inductive Precedence where
  | logicalOr
  | logicalAnd
  | relational
  | additive
  | multiplicative
  | exponent
  deriving DecidableEq

namespace Precedence

/-- The name of a class. -/
def label : Precedence → String
  | logicalOr => "LOGICAL_OR"
  | logicalAnd => "LOGICAL_AND"
  | relational => "RELATIONAL"
  | additive => "ADDITIVE"
  | multiplicative => "MULTIPLICATIVE"
  | exponent => "EXPONENT"

/-- The operators and their classes. -/
def table : List (String × Precedence) :=
  [("or", logicalOr), ("and", logicalAnd),
   ("<", relational), ("<=", relational), (">", relational), (">=", relational),
   ("==", relational), ("<>", relational),
   ("+", additive), ("-", additive), (".+", additive), (".-", additive),
   ("*", multiplicative), ("/", multiplicative), (".*", multiplicative), ("./", multiplicative),
   ("^", exponent), (".^", exponent)]

/-- The class of an operator. -/
def ofOperator? (operator : String) : Option Precedence := table.lookup operator

/-- Chains of these break at their operators, all or none. -/
def isLogical (k : Precedence) : Bool := k = logicalOr || k = logicalAnd

/-- Chains of these are packed. -/
def isArithmetic (k : Precedence) : Bool := k = additive || k = multiplicative

end Precedence

/-- The operators in the order in which a text is searched for any of them. -/
def searchedOperators : List String :=
  ["==", "<>", "<=", ">=", ".+", ".-", ".*", "./", ".^",
   "and", "or", "<", ">", "+", "-", "*", "/", "^"]

/-- A text without the blanks around it, if anything is left. -/
def trimmed? (cs : List Char) : Option (List Char) :=
  let inner := trim cs
  if inner.isEmpty then none else some inner

/-- The operator by the spans of the operands. -/
def operatorBySpans? (n left right : Node) : Option (List Char) := do
  let n ← n.placed?
  let left ← left.placed?
  let right ← right.placed?
  trimmed? (cut n.text (n.offset left.span.stop) (n.offset right.span.start))

/-- The operator by the texts of the operands: after the first occurrence of the left one and
before the last occurrence of the right one. -/
def operatorByTexts? (text left right : List Char) : Option (List Char) :=
  let leftEnd := position (firstIndex? left text) + left.length
  let rightStart := position (lastIndex? right text)
  if leftEnd < rightStart then trimmed? (cut text leftEnd rightStart) else none

/-- The first known operator that occurs in a text. -/
def operatorAnywhere (text : List Char) : String :=
  (searchedOperators.find? fun op => occursIn op.toList text).getD "?"

/-- The operator of a node with the given operands. -/
def operatorBetween (n left right : Node) : String :=
  let text := n.textOrEmpty.toList
  let found := (operatorBySpans? n left right).or
    (operatorByTexts? text left.textOrEmpty.toList right.textOrEmpty.toList)
  found.elim (operatorAnywhere text) String.ofList

/-- The operator of a binary expression; it needs two operands. -/
def operatorOf (n : Node) : Except PrintError String :=
  match n.children with
  | left :: right :: _ => .ok (operatorBetween n left right)
  | _ => .error .missingChild

/-- The precedence class of the operator of a binary expression. -/
def precedenceOf (n : Node) : Except PrintError (Option Precedence) := do
  return Precedence.ofOperator? (← operatorOf n)

end Typeset.Modelica
