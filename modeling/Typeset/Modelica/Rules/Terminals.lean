import Typeset.Modelica.Rules.Basic

/-!
# Rules for names, literals and wrappers
-/

namespace Typeset.Modelica.Rules

open Doc Text

/-- The text of the node. -/
def plain : DocRule := fun p _ => return textOf p.node

/-- The text of the node as a token. -/
def tokenText (c : TokenClass) : DocRule := fun p _ => return token c p.node.textOrEmpty

/-- The words of the node as a keyword. -/
def classPrefixes : DocRule := fun p _ =>
  return keyword (String.ofList (unwords p.node.textOrEmpty.toList))

/-- The children one after the other. -/
def sequence : DocRule := fun p print => return cat (← printChildren p print)

/-- The children one after the other, or the text of a node without children. -/
def literal : DocRule := fun p print =>
  if p.node.children.isEmpty then return textOf p.node else sequence p print

/-- The children with spaces between them. -/
def spaced : DocRule := spacedChildren

/-- The children with commas between them. -/
def commaList : DocRule := fun p print => return sepBy (lit ", ") (← printChildren p print)

/-- The children on lines of their own. -/
def onLines : DocRule := fun p print => return sepBy hardLine (← printChildren p print)

/-- The kinds of these rules. -/
def terminals : List (List String × DocRule) :=
  [(["IDENT", "base_prefix", "end_expression"], plain),
   (["STRING"], tokenText .literalString),
   (["UNSIGNED_INTEGER"], tokenText .numberInt),
   (["UNSIGNED_REAL"], tokenText .numberFloat),
   (["comment"], tokenText .commentSingle),
   (["BLOCK_COMMENT"], tokenText .commentMultiline),
   (["class_prefixes"], classPrefixes),
   (["logical_literal_expression"], tokenText .keywordConstant),
   (["literal_expression", "string_literal_expression", "unsigned_integer_literal_expression",
     "unsigned_real_literal_expression"], literal),
   (["expression", "simple_expression", "primary_expression", "type_specifier",
     "description_string", "language_specification"], sequence)]

end Typeset.Modelica.Rules
