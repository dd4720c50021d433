/-!
# Token classes

The syntactic classes that highlighted text falls into. Each class has a number, a label
and a scope: the dotted name under which styles list it.

## Main definitions

* `TokenClass` : the classes, in the order of their numbers.
* `TokenClass.label`, `TokenClass.number`, `TokenClass.scope`.
* `TokenClass.ofLabel?` : the class with a given label.
-/

namespace Typeset

/-- A syntactic class of highlighted text. -/
inductive TokenClass where
  | keyword
  | keywordConstant
  | keywordType
  | name
  | nameBuiltin
  | nameClass
  | nameFunction
  | literalString
  | numberInt
  | numberFloat
  | operator
  | operatorWord
  | punctuation
  | commentSingle
  | commentMultiline
  deriving DecidableEq

namespace TokenClass

/-- All classes in the order of their numbers. -/
def all : List TokenClass :=
  [keyword, keywordConstant, keywordType, name, nameBuiltin, nameClass, nameFunction,
   literalString, numberInt, numberFloat, operator, operatorWord, punctuation,
   commentSingle, commentMultiline]

/-- The label of a class. -/
def label : TokenClass → String
  | keyword => "KEYWORD"
  | keywordConstant => "KEYWORD_CONSTANT"
  | keywordType => "KEYWORD_TYPE"
  | name => "NAME"
  | nameBuiltin => "NAME_BUILTIN"
  | nameClass => "NAME_CLASS"
  | nameFunction => "NAME_FUNCTION"
  | literalString => "LITERAL_STRING"
  | numberInt => "NUMBER_INT"
  | numberFloat => "NUMBER_FLOAT"
  | operator => "OPERATOR"
  | operatorWord => "OPERATOR_WORD"
  | punctuation => "PUNCTUATION"
  | commentSingle => "COMMENT_SINGLE"
  | commentMultiline => "COMMENT_MULTILINE"

/-- The dotted name under which styles list a class. -/
def scope : TokenClass → String
  | keyword => "Keyword"
  | keywordConstant => "Keyword.Constant"
  | keywordType => "Keyword.Type"
  | name => "Name"
  | nameBuiltin => "Name.Builtin"
  | nameClass => "Name.Class"
  | nameFunction => "Name.Function"
  | literalString => "Literal.String"
  | numberInt => "Literal.Number.Integer"
  | numberFloat => "Literal.Number.Float"
  | operator => "Operator"
  | operatorWord => "Operator.Word"
  | punctuation => "Punctuation"
  | commentSingle => "Comment.Single"
  | commentMultiline => "Comment.Multiline"

/-- The number of a class, from one. -/
def number (c : TokenClass) : Nat := all.idxOf c + 1

/-- The class with the given label. -/
def ofLabel? (s : String) : Option TokenClass := all.find? (·.label = s)

end TokenClass

end Typeset
