import Typeset.Modelica.Rules.Terminals

/-!
# Rules for calls, names and annotations
-/

namespace Typeset.Modelica.Rules

open Doc

/-- The compact form of a call of a graphical primitive inside of an annotation, if it is
short. -/
def compactCall? (p : Path) : Option String :=
  let callee := p.node.firstChild? ["component_reference", "name"]
  if underAnnotationClause p && (callee.bind (·.text)).any graphicalNames.contains then
    let short := compactText p.node.textOrEmpty
    if short.length ≤ compactWidth then some short else none
  else none

/-- A call. -/
def functionApplication : DocRule := fun p print =>
  match compactCall? p with
  | some short => return lit short
  | none => return cat (← select
      [(["component_reference", "name"], fun d => [annotate (.token .nameFunction) d]),
       (["function_call_args"], alone)] p print)

/-- Whether the arguments of a call are a single one. -/
def hasSingleArgument (n : Node) : Bool :=
  match n.children with
  | [list] =>
    (list.kind = "function_arguments" || list.kind = "named_arguments") &&
      list.children.length = 1
  | _ => false

/-- The arguments of a call. -/
def functionCallArgs : DocRule := fun p print =>
  if p.node.children.isEmpty then return lit "()"
  else do
    let args ← printChildren p print
    let body (packed : Bool) : Doc := nested (cat [emptyLine, commaSeparated packed args])
    return bracketed "("
      (if underAnnotationClause p then body true
      else if hasSingleArgument p.node then args.headD nil
      else body false) ")"

/-- An argument with a name. -/
def namedArgument : DocRule := fun p print => do
  let parts ← Printing.collect (fun c =>
    if c.1.node.kind = "IDENT" then return [textOf c.1.node, operator "="]
    else return [nested (← print c)]) p.children
  return cat parts

/-- A function with some of its arguments given. -/
def functionPartialApplication : DocRule := fun p print =>
  return cat [keyword "function", space, ← spacedChildren p print]

/-- Names with dots between them; `last` is what was printed before. A subscript needs no
dot, and a dot that was printed as a name is not repeated. -/
def dotted (last : Option Doc) : List (Bool × Doc) → List Doc
  | [] => []
  | (isName, d) :: rest =>
    let dot := if isName && last.isSome && last ≠ some (lit ".") then [lit "."] else []
    dot ++ d :: dotted (some d) rest

/-- A name with dots and subscripts. -/
def reference : DocRule := fun p print => do
  let parts ← Printing.collect (fun c =>
    let kind := c.1.node.kind
    let isName := kind = "IDENT" || kind = "name" || kind = "component_reference"
    if isName || kind = "array_subscripts" then return [(isName, ← print c)]
    else return []) p.children
  return if parts.isEmpty then textOf p.node else cat (dotted none parts)

/-- `annotation(...)` -/
def annotationClause : DocRule := fun p print =>
  return cat (keyword "annotation" :: (← printChildren p print))

/-- `external "C" f(x);` -/
def externalClause : DocRule := fun p print => do
  let parts ← select
    [(["language_specification", "external_function", "annotation_clause"], spaceBefore)]
    p print
  return cat (keyword "external" :: parts ++ [lit ";"])

/-- The kinds of these rules. -/
def calls : List (List String × DocRule) :=
  [(["function_application"], functionApplication),
   (["function_call_args"], functionCallArgs),
   (["named_argument"], namedArgument),
   (["function_partial_application"], functionPartialApplication),
   (["name", "component_reference"], reference),
   (["annotation_clause"], annotationClause),
   (["external_clause"], externalClause)]

end Typeset.Modelica.Rules
