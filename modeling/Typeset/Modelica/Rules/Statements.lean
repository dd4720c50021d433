import Typeset.Modelica.Rules.Terminals

/-!
# Rules for equations and statements
-/

namespace Typeset.Modelica.Rules

open Doc Text

/-- A section of equations or statements under its title. -/
def sectionOf (title bodyKind : String) : DocRule := fun p print => do
  let content ← select [([bodyKind, "comment"], alone)] p print
  let isInitial := "initial".toList.isPrefixOf (trimFront p.node.textOrEmpty.toList)
  let head := keyword (if isInitial then "initial " ++ title else title)
  return cat (head :: if content.isEmpty then [] else hardIndented (sepBy hardLine content))

/-- An equation: an equals sign stands before the second expression. -/
def simpleEquation : DocRule := fun p print => do
  let part (seen : Nat) (c : Below p) : Printing (List Doc) :=
    if isExpression c.1.node then do
      let d ← print c
      return if seen = 1 then [space, operator "=", space, d] else [d]
    else selectChild [(["comment"], spaceBefore)] print c
  let next (seen : Nat) (c : Below p) : Nat := if isExpression c.1.node then seen + 1 else seen
  return grouped (cat ((← Printing.collectFrom next part 0 p.children) ++ [lit ";"]))

/-- An assignment: the assignment sign stands before every expression after a target. -/
def assignmentStatement : DocRule := fun p print => do
  let part (hasTarget : Bool) (c : Below p) : Printing (List Doc) :=
    if isExpression c.1.node then do
      let d ← print c
      return if hasTarget then [space, operator ":=", space, d] else [d]
    else selectChild [(["component_reference"], alone), (["comment"], spaceBefore)] print c
  let next (hasTarget : Bool) (c : Below p) : Bool :=
    hasTarget || c.1.node.kind = "component_reference"
  return grouped (cat ((← Printing.collectFrom next part false p.children) ++ [lit ";"]))

/-- `connect(a, b) annotation(...);`, where the last annotation counts. -/
def connectClause : DocRule := fun p print => do
  let parts ← Printing.collect (fun c =>
    let kind := c.1.node.kind
    if kind = "component_reference" || kind = "annotation_clause" then
      return [(kind, ← print c)]
    else return []) p.children
  let args := (parts.filter (·.1 = "component_reference")).map (·.2)
  let notes := (parts.filter (·.1 = "annotation_clause")).map (·.2)
  return grouped (cat ([keyword "connect", lit "(", sepBy (lit ", ") args, lit ")"] ++
    notes.getLast?.elim [] lineIndented ++ [lit ";"]))

/-- A loop over indices. -/
def forLoop : DocRule := fun p print => do
  let parts ← select
    [(["for_indices"], fun d => [d, space, keyword "loop"]),
     (["equation_list", "statement_list"], hardIndented)] p print
  return cat (keyword "for" :: space :: parts ++ [hardLine, keyword "end for", lit ";"])

/-- An index of a loop with its range. -/
def forIndex : DocRule := fun p print => do
  let parts ← Printing.collect (fun c =>
    if c.1.node.kind = "IDENT" then return [textOf c.1.node]
    else selectChild [(["expression", "simple_expression"],
      fun d => [space, keyword "in", space, d])] print c) p.children
  return cat parts

/-- What a block has printed so far. -/
structure BlockState where
  /-- Whether the condition was printed. -/
  conditionDone : Bool := false
  /-- Whether a body was printed. -/
  bodySeen : Bool := false
  /-- Whether clauses of other conditions were printed. -/
  clausesSeen : Bool := false

/-- How a block is printed. -/
structure BlockStyle where
  /-- The keyword in front of the condition. -/
  opener : String
  /-- The keyword after the condition. -/
  separator : String := "then"
  /-- The keywords at the end; a clause inside of another block has none, and no `else`. -/
  closer : Option String
  /-- The kinds of the clauses of other conditions. -/
  clauseKinds : List String := []

/-- The kinds of the bodies of blocks. -/
def isBody (n : Node) : Bool := n.kind = "equation_list" || n.kind = "statement_list"

/-- Whether a body fills the field of an `else` branch. -/
def fillsElse (n : Node) : Bool :=
  n.field = some "elseEquations" || n.field = some "elseStatements"

/-- What a block has printed after a child. -/
def BlockState.after (style : BlockStyle) (s : BlockState) (n : Node) : BlockState :=
  if isExpression n && !s.conditionDone then { s with conditionDone := true }
  else if isBody n then { s with bodySeen := true }
  else if style.clauseKinds.contains n.kind then { s with clausesSeen := true }
  else s

/-- What stands in front of a body. A second body, or one that follows clauses, is the `else`
branch. -/
def elseBefore (style : BlockStyle) (s : BlockState) (n : Node) : List Doc :=
  if style.closer.isSome && (fillsElse n || s.bodySeen || s.clausesSeen) then
    [hardLine, keyword "else"]
  else []

/-- A block with a condition, bodies and clauses of other conditions. -/
def conditionalBlock (style : BlockStyle) : DocRule := fun p print => do
  let part (s : BlockState) (c : Below p) : Printing (List Doc) :=
    let n := c.1.node
    if isExpression n && !s.conditionDone then do
      return [← print c, space, keyword style.separator]
    else if isBody n then do
      return elseBefore style s n ++ hardIndented (← print c)
    else if style.clauseKinds.contains n.kind then return hardBefore (← print c)
    else selectChild [(["comment"], spaceBefore)] print c
  let parts ← Printing.collectFrom (fun s c => s.after style c.1.node) part {} p.children
  return cat (keyword style.opener :: space :: parts ++
    style.closer.elim [] fun k => [hardLine, keyword k, lit ";"])

/-- A loop with a condition. -/
def whileBlock : BlockStyle :=
  { opener := "while", separator := "loop", closer := some "end while" }

/-- An `if` block. -/
def ifBlock : BlockStyle :=
  { opener := "if", closer := some "end if",
    clauseKinds := ["else_if_equation_clause_list", "else_if_statement_clause_list"] }

/-- A further condition of an `if` block. -/
def elseIfBlock : BlockStyle := { opener := "elseif", closer := none }

/-- A `when` block. -/
def whenBlock : BlockStyle :=
  { opener := "when", closer := some "end when",
    clauseKinds := ["else_when_equation_clause_list", "else_when_statement_clause_list"] }

/-- A further condition of a `when` block. -/
def elseWhenBlock : BlockStyle := { opener := "elsewhen", closer := none }

/-- A call as a statement. -/
def callStatement : DocRule := fun p print =>
  return cat ((← printChildren p print) ++ [lit ";"])

/-- A statement that is a keyword. -/
def keywordStatement (s : String) : DocRule := fun _ _ => return cat [keyword s, lit ";"]

/-- A call with several outputs. -/
def multipleOutputCall : DocRule := fun p print => do
  let parts ← select
    [(["output_expression_list"], alone),
     (["component_reference", "function_application"],
      fun d => [lit ") ", operator ":=", space, d])] p print
  return cat (lit "(" :: parts ++ [lit ";"])

/-- The kinds of these rules. -/
def statements : List (List String × DocRule) :=
  [(["equation_section"], sectionOf "equation" "equation_list"),
   (["algorithm_section"], sectionOf "algorithm" "statement_list"),
   (["simple_equation"], simpleEquation),
   (["assignment_statement"], assignmentStatement),
   (["connect_clause"], connectClause),
   (["for_equation", "for_statement"], forLoop),
   (["for_index"], forIndex),
   (["while_statement"], conditionalBlock whileBlock),
   (["if_equation", "if_statement"], conditionalBlock ifBlock),
   (["else_if_equation_clause", "else_if_statement_clause"], conditionalBlock elseIfBlock),
   (["when_equation", "when_statement"], conditionalBlock whenBlock),
   (["else_when_equation_clause", "else_when_statement_clause"],
    conditionalBlock elseWhenBlock),
   (["function_application_equation", "function_application_statement"], callStatement),
   (["break_statement"], keywordStatement "break"),
   (["return_statement"], keywordStatement "return"),
   (["multiple_output_function_application_statement"], multipleOutputCall)]

end Typeset.Modelica.Rules
