import Typeset.Modelica.Rules.Terminals

/-!
# Rules for modifications
-/

namespace Typeset.Modelica.Rules

open Doc Text

/-- A modification. The value of a declaration may hug the equals sign; any other value
follows it without a space. -/
def modification : DocRule := fun p print => do
  let isBinding := p.above.head?.any (·.node.kind = "declaration")
  let value (d : Doc) : List Doc :=
    if isBinding then [space, operator "=", nested (hug softLine d)]
    else [operator "=", nested d]
  return cat (← select
    [(["class_modification"], alone),
     (["expression", "simple_expression"], value)] p print)

/-- Whether the arguments at a path already stand in the indentation of an argument list
around them. -/
def inArgumentList (p : Path) : Bool :=
  match p.above with
  | parent :: owner :: _ =>
    parent.node.kind = "modification" && owner.node.kind = "element_modification"
  | _ => false

/-- Arguments in parentheses. -/
def classModification : DocRule := fun p print =>
  if p.node.children.isEmpty then return lit "()"
  else do
    let args ← printChildren p print
    let body (packed : Bool) : Doc := cat [emptyLine, commaSeparated packed args]
    return bracketed "("
      (if underAnnotationClause p then
        if inGraphicalPrimitive p then nested (commaSeparated true args)
        else if inArgumentList p then body true
        else nested (body true)
      else nested (body false)) ")"

/-- Arguments with commas between them, packed inside of annotations. -/
def argumentList : DocRule := fun p print =>
  return commaSeparated (underAnnotationClause p) (← printChildren p print)

/-- The compact form of a modification of a graphical element, if it is one and the form is
short. It starts at the name; if the name does not occur in the text, only the last character
of the text is left. -/
def compactModification? (p : Path) : Except PrintError (Option String) :=
  match p.node.firstChild? ["name"] with
  | none => return none
  | some name =>
    if underAnnotationClause p && name.text.any graphicalNames.contains then
      match p.node.text with
      | none => throw .missingText
      | some source =>
        let start := position (firstIndex? name.textOrEmpty.toList source.toList)
        let short := compactText (String.ofList (cutFrom source.toList start))
        return if short.length ≤ compactWidth then some short else none
    else return none

/-- A modification of an element after its leading keywords. -/
def elementModification : DocRule := fun p print => do
  let leading := leadingParts (leadingWords p.node)
  match ← Printing.lift (compactModification? p) with
  | some short => return cat (leading ++ [lit short])
  | none =>
    let parts ← select
      [(["name", "modification"], alone),
       (["description_string"], spaceBefore)] p print
    return cat (leading ++ parts)

/-- A redeclaration after its leading keywords. -/
def redeclaration : DocRule := fun p print => do
  let words := leadingWords p.node
  let parts ← select
    [(["short_class_definition", "class_definition", "component_clause"], alone)] p print
  return cat (keyword (if words.isEmpty then "redeclare" else words) :: space :: parts)

/-- A short class definition. -/
def shortClassDefinition : DocRule := fun p print =>
  return cat (← select
    [(["class_prefixes"], spaceAfterDoc), (["short_class_specifier"], alone)] p print)

/-- The kinds of these rules. -/
def modifications : List (List String × DocRule) :=
  [(["modification"], modification),
   (["class_modification"], classModification),
   (["argument_list", "function_arguments", "named_arguments"], argumentList),
   (["element_modification"], elementModification),
   (["class_redeclaration", "component_redeclaration"], redeclaration),
   (["short_class_definition"], shortClassDefinition)]

end Typeset.Modelica.Rules
