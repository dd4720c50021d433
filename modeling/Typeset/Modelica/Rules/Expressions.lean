import Typeset.Modelica.Rules.Terminals

/-!
# Rules for expressions
-/

namespace Typeset.Modelica.Rules

open Doc Text

/-- A branch of a conditional expression after its value. -/
def furtherBranch {p : Path} (print : Below p → Printing Doc) (c : Below p) :
    Printing (List Doc) := do
  let d ← print c
  return if c.1.node.kind = "else_if_clause" then [softLine, d]
    else [softLine, keyword "else", space, d]

/-- A conditional expression; its branches are indented unless it continues an expression
around it. -/
def ifExpression : DocRule := fun p print =>
  match p.children with
  | condition :: value :: others => do
    let conditionDoc ← print condition
    let valueDoc ← print value
    let further ← Printing.collect (furtherBranch print) others
    let branches := cat ([softLine, keyword "then", space, valueDoc] ++ further)
    let continuation ← Printing.lift (policy.isContinuation p)
    return grouped (cat [keyword "if", space, conditionDoc,
      if continuation then branches else nested branches])
  | _ => .fail (.noValueBranch p.node.kind p.node.span)

/-- A further condition of a conditional expression. -/
def elseIfClause : DocRule := fun p print =>
  match p.children with
  | [] => .fail .missingChild
  | condition :: others => do
    let conditionDoc ← print condition
    let values ← Printing.all print (others.take 1)
    return grouped (cat ([keyword "elseif", space, conditionDoc] ++
      values.flatMap fun d => [softLine, keyword "then", space, d]))

/-- A range. -/
def rangeExpression : DocRule := fun p print =>
  return sepBy (lit ":") (← printChildren p print)

/-- The operator chain at a path of the given class. -/
def operatorChain (k : Precedence) : DocRule := fun p print => do
  match ← Printing.lift (flattenChain p) with
  | .single => .fail .endless
  | .chain operands operators =>
    let docs ← Printing.all print operands
    let continuation ← Printing.lift (policy.isContinuation p)
    let packed := k.isArithmetic
    let style : ChainStyle :=
      { indentRest := !continuation
        packed := packed
        hugLast := operands.getLast?.any (isHuggable ·.1) && (packed || operands.length = 2) }
    Printing.lift ((chainOf style docs (operators.map operator)).mapError .chain)

/-- An expression with one operator that stays on one line. -/
def tightExpression (op : String) : DocRule := fun p print => do
  return sepBy space ((← printChildren p print).intersperse (operator op))

/-- A binary expression: chains of logical and arithmetic operators may break, others stay on
one line. -/
def binaryExpression : DocRule := fun p print =>
  if p.node.children.length = 2 then do
    let op ← Printing.lift (operatorOf p.node)
    match Precedence.ofOperator? op with
    | some k => if k.isLogical || k.isArithmetic then operatorChain k p print
                else tightExpression op p print
    | none => tightExpression op p print
  else spacedChildren p print

/-- The operators in front of an operand; a word is followed by a space. -/
def unaryOperators : List String := ["not ", ".-", ".+", "-", "+"]

/-- The operator that a text starts with, as it is printed. -/
def unaryParts (cs : List Char) : List Doc :=
  match leading? unaryOperators cs with
  | none => []
  | some op =>
    operator (String.ofList (trim op.toList)) ::
      if op.toList.getLast? = some ' ' then [space] else []

/-- An operand after its operator. -/
def unaryExpression : DocRule := fun p print => do
  return cat (unaryParts p.node.textOrEmpty.toList ++ (← printChildren p print))

/-- An expression in parentheses. -/
def parenthesizedExpression : DocRule := fun p print => do
  return bracketed "(" (nested (cat (← printChildren p print))) ")"

/-- An array in braces. -/
def arrayConstructor : DocRule := fun p print => do
  let args ← printChildren p print
  if underAnnotationClause p then
    return bracketed openingBrace (sepBy (lit ", ") args) closingBrace
  else return grouped (cat [lit openingBrace, nested (cat [emptyLine, cat args]), emptyLine,
    lit closingBrace])

/-- The elements of an array. -/
def arrayArguments : DocRule := fun p print =>
  return commaSeparated false (← printChildren p print)

/-- A matrix in brackets. -/
def arrayConcatenation : DocRule := fun p print => do
  let rows ← printChildren p print
  if underAnnotationClause p then return bracketed "[" (sepBy (lit "; ") rows) "]"
  else return grouped (cat [lit "[",
    nested (cat [emptyLine, sepBy (cat [lit ";", softLine]) rows]), emptyLine, lit "]"])

/-- An array built by a loop. -/
def arrayComprehension : DocRule := fun p print => do
  let parts ← Printing.collect (fun c => do
    let d ← print c
    return if c.1.node.kind = "for_indices" then [space, keyword "for", space, d] else [d])
    p.children
  return cat (lit openingBrace :: parts ++ [lit closingBrace])

/-- Subscripts in brackets. -/
def arraySubscripts : DocRule := fun p print => do
  return cat [lit "[", ← commaList p print, lit "]"]

/-- A subscript. -/
def subscript : DocRule := fun p print =>
  if p.node.text = some ":" || p.node.children.isEmpty then return textOf p.node
  else sequence p print

/-- The kinds of these rules. -/
def expressions : List (List String × DocRule) :=
  [(["if_expression"], ifExpression),
   (["else_if_clause"], elseIfClause),
   (["range_expression"], rangeExpression),
   (["binary_expression"], binaryExpression),
   (["unary_expression"], unaryExpression),
   (["parenthesized_expression"], parenthesizedExpression),
   (["array_constructor"], arrayConstructor),
   (["array_arguments"], arrayArguments),
   (["array_concatenation"], arrayConcatenation),
   (["array_comprehension"], arrayComprehension),
   (["array_subscripts"], arraySubscripts),
   (["subscript"], subscript)]

end Typeset.Modelica.Rules
