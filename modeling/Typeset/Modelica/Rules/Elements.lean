import Typeset.Modelica.Rules.Terminals

/-!
# Rules for the elements of classes
-/

namespace Typeset.Modelica.Rules

open Doc

/-- An element after its leading keywords. -/
def namedElement : DocRule := fun p print => do
  let parts ← select
    [(["component_clause"], fun d => [d, lit ";"]),
     (["class_definition"], alone),
     (["comment"], spaceBefore)] p print
  return cat (leadingParts (leadingWords p.node) ++ parts)

/-- `import A.B;` -/
def importClause : DocRule := fun p print =>
  return cat [keyword "import", space, ← spacedChildren p print, lit ";"]

/-- `extends A(x = 1);` -/
def extendsClause : DocRule := fun p print => do
  let parts ← select
    [(["type_specifier", "class_modification"], alone),
     (["annotation_clause"], spaceBefore)] p print
  return grouped (cat (keyword "extends" :: space :: parts ++ [lit ";"]))

/-- `constrainedby A` -/
def constrainingClause : DocRule := fun p print =>
  return cat [keyword "constrainedby", space, ← spacedChildren p print]

/-- Leading keywords, a type and the declared components. -/
def componentClause : DocRule := fun p print => do
  let words := leadingText p.node (p.node.firstChild? ["type_specifier"])
  let parts ← select
    [(["type_specifier"], fun d => [annotate (.token .keywordType) d, space]),
     (["array_subscripts"], spaceAfterDoc),
     (["component_list"], alone)] p print
  return cat (leadingParts words ++ parts)

/-- Several declarations break together; a single one stands by itself. -/
def componentList : DocRule := fun p print => do
  match ← printChildren p print with
  | [d] => return d
  | ds => return grouped (nested (commaSeparated false ds))

/-- A declaration with its condition and its comments. -/
def componentDeclaration : DocRule := fun p print => do
  let parts ← select
    [(["declaration"], alone),
     (["condition_attribute", "comment"], spaceBefore),
     (["description_string", "annotation_clause"], lineIndented)] p print
  return grouped (cat parts)

/-- `if c` -/
def conditionAttribute : DocRule := fun p print =>
  return cat [keyword "if", space, ← sequence p print]

/-- A name with its subscripts and its modification. -/
def declaration : DocRule := fun p print =>
  return cat (← select [(["IDENT", "array_subscripts", "modification"], alone)] p print)

/-- The kinds of these rules. -/
def elements : List (List String × DocRule) :=
  [(["named_element"], namedElement),
   (["import_clause"], importClause),
   (["extends_clause"], extendsClause),
   (["constraining_clause"], constrainingClause),
   (["component_clause"], componentClause),
   (["component_list"], componentList),
   (["component_declaration"], componentDeclaration),
   (["condition_attribute"], conditionAttribute),
   (["declaration"], declaration)]

end Typeset.Modelica.Rules
