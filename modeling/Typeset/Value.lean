import Typeset.Doc.Chain
import Typeset.Doc.Token
import Typeset.Doc.Written
import Typeset.Scalar

/-!
# Documents from untyped values

Documents can be put together from values that need not be documents. The constructors of
documents and the combinators check their parts from left to right and fail at the first one
that is no document; they differ in their wording, and the combinators take the empty text
for the empty document. A value that is only passed on is not checked.

## Main definitions

* `Value` : a document or a foreign value.
* `BuildError` : why a document could not be built.
* `Value.checked`, `Value.cast` : the document that a constructor or a combinator takes a value
  for.
* `Build` : the constructors and combinators on values.
-/

namespace Typeset

/-- A document or a foreign value. -/
inductive Value where
  /-- A document. -/
  | doc (d : Doc)
  /-- A value that is no document. -/
  | foreign (f : Foreign)

/-- Why a document could not be built. -/
inductive BuildError where
  /-- A constructor was given a value that is no document. -/
  | wrongPart (f : Foreign)
  /-- A combinator was given a value that is no document. -/
  | noDocument (f : Foreign)
  /-- A text node was made from a value that is no text. -/
  | wrongText (v : Scalar)
  /-- The combinator for texts was given a value that is no text. -/
  | noText
  /-- A line was made from a value that is no kind of line. -/
  | wrongLine (v : Scalar)
  /-- No kind of line has the name. -/
  | noLineKind (v : Scalar)
  /-- A conditional has no candidates. -/
  | noCandidates
  /-- The operands and operators of a chain do not match. -/
  | chain (mismatch : ChainMismatch)
  /-- A chain is given a setting that it does not have. -/
  | unexpected (key : String)
  /-- An operator is no text. -/
  | noOperator

/-- The wording of an error that has one. -/
def BuildError.message? : BuildError → Option String
  | wrongPart f => some ("Got " ++ f.written ++ " of type " ++ f.sort ++
      ", expected 'str' or 'Doc'")
  | noDocument f => some f.written
  | wrongText v => some ("Got " ++ v.written ++ " of type " ++ v.sort ++ ", expected 'str'")
  | noText => some "Argument to text function must be a str"
  | wrongLine v => some ("Got " ++ v.written ++ " of type " ++ v.sort ++
      ", expected 'LineKind'")
  | noCandidates => some "ConditionalGroup requires at least one candidate"
  | chain mismatch => some mismatch.message
  | noLineKind _ | unexpected _ | noOperator => none

namespace Value

/-- Whether the value is a document. -/
def isDoc : Value → Bool
  | doc _ => true
  | foreign _ => false

/-- The document that a constructor takes a value for. -/
def checked : Value → Except BuildError Doc
  | doc d => .ok d
  | foreign f => .error (.wrongPart f)

/-- The document that a combinator takes a value for. -/
def cast : Value → Except BuildError Doc
  | doc d => .ok d.tidy
  | foreign f => .error (.noDocument f)

/-- What measuring takes a value for: a foreign value is a document of an unknown sort. -/
def measured : Value → Doc
  | doc d => d
  | foreign f => .unknown f.sort

/-- How a value is shown. -/
def written : Value → String
  | doc d => d.written
  | foreign f => f.written

end Value

/-- A value built, or the reason why it was not. -/
abbrev Build := Except BuildError Value

namespace Build

open Value

/-! ### Constructors -/

/-- A text node. -/
def textNode : Scalar → Build
  | .text s => return doc (.text s)
  | v => throw (.wrongText v)

/-- A line of a kind given by name. -/
def line (v : Scalar) : Build :=
  let kind := match v with
    | .text s => LineKind.ofLabel? s
    | .foreign _ => none
  match kind with
  | some k => return doc (.line k)
  | none => throw (.noLineKind v)

/-- A line of a kind that is not given as one. -/
def lineOfValue (v : Scalar) : Build := throw (.wrongLine v)

/-- A constructor of one part. -/
def wrap (f : Doc → Doc) (v : Value) : Build := return doc (f (← v.checked))

/-- A constructor of several parts. -/
def wrapAll (f : List Doc → Doc) (vs : List Value) : Build :=
  return doc (f (← vs.mapM checked))

/-- A conditional of the given candidates, at least one. -/
def conditionalOf (candidates : List Doc) : Except BuildError Doc :=
  match candidates.getLast? with
  | some fallback => return .conditional candidates.dropLast fallback
  | none => throw .noCandidates

/-- A conditional. -/
def conditional (vs : List Value) : Build :=
  return doc (← conditionalOf (← vs.mapM checked))

/-! ### Combinators -/

/-- A text node from the combinator for texts. -/
def text : Scalar → Build
  | .text s => return doc (.text s)
  | .foreign _ => throw .noText

/-- A combinator of one part. -/
def combine (f : Doc → Doc) (v : Value) : Build := return doc (f (← v.cast))

/-- A combinator of several parts. -/
def combineAll (f : List Doc → Doc) (vs : List Value) : Build :=
  return doc (f (← vs.mapM cast))

/-- Parts with a separator between any two of them. -/
def sepBy (separator : Value) (vs : List Value) : Build :=
  combineAll .cat (vs.intersperse separator)

/-- The first candidate that fits, at least one. -/
def firstFitting (vs : List Value) : Build :=
  return doc (← conditionalOf (← vs.mapM cast))

/-- The document with its outermost group forced to break; any other value as it is. -/
def breakGroup : Value → Value
  | doc d => doc d.breakGroup
  | foreign f => foreign f

/-- An operand that can hug its operator. -/
def hug (separator operand : Value) : Build := do
  let operand ← operand.cast
  return doc (.hug (← separator.cast) operand)

/-- Operands and operators in the order in which they stand in a chain. -/
def interleave : List Value → List Value → List Value
  | o :: os, p :: ps => o :: p :: interleave os ps
  | os, _ => os

/-- An operator chain. Without operators the only operand is passed on. -/
def chain (style : ChainStyle) (operands operators : List Value) : Build :=
  match operands, operators with
  | [v], [] => return v
  | _, _ => do
    if operands.length = operators.length + 1 then
      let _ ← (interleave operands operators).mapM cast
      let docs ← operands.mapM cast
      let ops ← operators.mapM cast
      return doc (← (Doc.chainOf style docs ops).mapError .chain)
    else throw (.chain ⟨operators.length + 1, operands.length⟩)

/-- A keyword. -/
def keyword (v : Value) : Build := combine (.annotate (.token .keyword)) v

/-- An operator, which must be a plain text. -/
def operator : Value → Build
  | doc (.lit s) => return doc (.operator s)
  | _ => throw .noOperator

end Build

end Typeset
