import Typeset.Modelica.Operator
import Typeset.OperatorChain

/-!
# Continuation policy for Modelica

Which nodes of a Modelica tree open the indentation level of continuation lines.
-/

namespace Typeset.Modelica

/-- Wrappers around expressions that have no layout of their own. -/
def expressionWrappers : List String := ["expression", "simple_expression", "primary_expression"]

/-- The kinds of declarations, statements and lists, in which continuation lines start
afresh. -/
def boundaryKinds : List String :=
  ["stored_definitions", "stored_definition", "class_definition", "long_class_specifier",
   "short_class_specifier", "element_list", "public_element_list", "protected_element_list",
   "named_element", "component_clause", "component_list", "component_declaration",
   "declaration", "condition_attribute", "equation_section", "algorithm_section",
   "equation_list", "statement_list", "simple_equation", "assignment_statement",
   "connect_clause", "for_equation", "for_statement", "for_index", "if_equation",
   "if_statement", "when_equation", "when_statement", "while_statement",
   "class_modification", "argument_list", "element_modification", "function_call_args",
   "function_arguments", "named_arguments", "array_constructor", "array_arguments",
   "array_concatenation", "array_subscripts", "subscript", "expression_list",
   "unary_expression"]

/-- The continuation policy. -/
def policy : Policy Precedence where
  claiming := ["parenthesized_expression", "named_argument", "modification"]
  boundary := boundaryKinds
  transparent := expressionWrappers
  conditional := ["if_expression", "else_if_clause"]
  binary := ["binary_expression"]
  classOf := precedenceOf

/-- The operator chain at a path. -/
def flattenChain (p : Path) : Except PrintError (Flattened p) :=
  policy.flatten operatorOf p

end Typeset.Modelica
