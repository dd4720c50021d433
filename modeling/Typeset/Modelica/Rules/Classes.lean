import Typeset.Modelica.Rules.Terminals

/-!
# Rules for files and classes
-/

namespace Typeset.Modelica.Rules

open Doc

/-- The definitions of a file on lines of their own, each line ended. -/
def storedDefinitions : DocRule := fun p print =>
  return cat [← onLines p print, hardLine]

/-- `within A.B;` -/
def withinClause : DocRule := fun p print => do
  let names ← select [(["name"], spaceBefore)] p print
  return cat (keyword "within" :: names ++ [lit ";"])

/-- The name of a class after a child: that of the first name that is not empty. -/
def classNameAfter (name : String) (n : Node) : String :=
  if n.kind = "IDENT" && name.isEmpty then n.textOrEmpty else name

/-- The sections of a class. -/
def classSections : Selection :=
  [(["description_string"], lineIndented),
   (["element_list", "public_element_list", "protected_element_list"], hardIndented),
   (["equation_section", "algorithm_section", "external_clause"], hardBefore),
   (["annotation_clause"], fun d => [nested (cat [hardLine, d, lit ";"])]),
   (["comment", "BLOCK_COMMENT"], hardIndented)]

/-- The kinds of element lists, which are left out when they are empty. -/
def elementLists : List String :=
  ["element_list", "public_element_list", "protected_element_list"]

/-- A class with its sections and its `end`. -/
def longClassSpecifier : DocRule := fun p print => do
  let part (name : String) (c : Below p) : Printing (List Doc) :=
    let n := c.1.node
    if n.kind = "IDENT" && name.isEmpty then return [token .nameClass n.textOrEmpty]
    else if elementLists.contains n.kind && n.children.isEmpty then return []
    else selectChild classSections print c
  let sections ← Printing.collectFrom (fun s c => classNameAfter s c.1.node) part "" p.children
  let name := p.node.children.foldl classNameAfter ""
  return grouped (cat (sections ++
    [hardLine, keyword "end", space, token .nameClass name, lit ";"]))

/-- `A = B(x = 1)` and `A = enumeration(a, b)`. -/
def shortClassSpecifier : DocRule := fun p print => do
  let sel : Selection :=
    [(["base_prefix"], spaceAfterDoc),
     (["enum_list"], fun d => [keyword "enumeration", lit "(", d, lit ")"]),
     (["type_specifier", "class_modification", "array_subscripts"], alone),
     (["description_string", "comment"], spaceBefore)]
  let parts ← Printing.collect (fun c =>
    if c.1.node.kind = "IDENT" then
      return [token .nameClass c.1.node.textOrEmpty, space, operator "=", space]
    else selectChild sel print c) p.children
  return cat parts

/-- The elements of a section under its title. -/
def visibilitySection : DocRule := fun p print => do
  let title := if p.node.kind = "public_element_list" then "public" else "protected"
  return cat (keyword title :: hardIndented (← onLines p print))

/-- The kinds of these rules. -/
def classes : List (List String × DocRule) :=
  [(["stored_definitions"], storedDefinitions),
   (["stored_definition", "element_list", "equation_list", "statement_list",
     "else_if_equation_clause_list", "else_if_statement_clause_list",
     "else_when_equation_clause_list", "else_when_statement_clause_list"], onLines),
   (["within_clause"], withinClause),
   (["class_definition"], spaced),
   (["long_class_specifier"], longClassSpecifier),
   (["short_class_specifier"], shortClassSpecifier),
   (["derivative_class_specifier", "enumeration_class_specifier", "extends_class_specifier",
     "enumeration_literal", "element_replaceable", "external_function"], spaced),
   (["enum_list", "import_list", "for_indices", "output_expression_list", "expression_list"],
    commaList),
   (["public_element_list", "protected_element_list"], visibilitySection)]

end Typeset.Modelica.Rules
