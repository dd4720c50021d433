import Typeset.Doc.Combinators

/-!
# Operator chains

The layout of a flattened chain `a op b op c`. Operators stay at the end of the line of the
operand before them. The first operand stands outside of the indentation, and all
continuation lines share one level of it.

## Main definitions

* `ChainStyle` : how the operands after the first one are laid out.
* `Doc.chain` : the chain of a first operand and pairs of an operator and an operand.
* `Doc.chainOf` : the chain of a list of operands and a list of operators.
-/

namespace Typeset

/-- How the operands of a chain after the first one are laid out. -/
structure ChainStyle where
  /-- Whether continuation lines are indented. -/
  indentRest : Bool := true
  /-- Whether operands are packed onto as few lines as fit; otherwise the chain breaks at
  every operator or at none. -/
  packed : Bool := false
  /-- Whether the last operand may stay on the line of its operator with its own group
  broken. -/
  hugLast : Bool := false

/-- A chain needs one operand more than it has operators. -/
structure ChainMismatch where
  /-- The number of operands that the operators ask for. -/
  expected : Nat
  /-- The number of operands given. -/
  given : Nat
  deriving DecidableEq

/-- The wording of a mismatch. -/
def ChainMismatch.message (e : ChainMismatch) : String :=
  "Expected " ++ toString e.expected ++ " operands, got " ++ toString e.given

namespace Doc

/-- The operands of a chain that an operator follows, each with its operator, and the last
operand. -/
def chainPieces : Doc → List (Doc × Doc) → List Doc × Doc
  | operand, [] => ([], operand)
  | operand, (operator, next) :: links =>
    let (pieces, last) := chainPieces next links
    (cat [operand, lit " ", operator] :: pieces, last)

/-- Each document after a soft line. -/
def lineBefore (ds : List Doc) : List Doc := ds.flatMap fun d => [softLine, d]

/-- The documents after the head of a chain, each after a soft line. A packed tail is a fill
that starts with empty content, so that its first line is decided like every other one. -/
def chainTail (packed : Bool) (ds : List Doc) : List Doc :=
  if packed then
    if ds.isEmpty then [] else [filled (nil :: lineBefore ds)]
  else lineBefore ds

/-- The chain of a first operand and the operators and operands after it. -/
def chain (style : ChainStyle) (first : Doc) : List (Doc × Doc) → Doc
  | [] => first
  | (operator, next) :: links =>
    let (middle, last) := chainPieces next links
    let rest :=
      if style.hugLast then cat (chainTail style.packed middle ++ [hug softLine last])
      else cat (chainTail style.packed (middle ++ [last]))
    let head := cat [first, lit " ", operator]
    grouped (cat [head, if style.indentRest then nested rest else rest])

/-- The chain of operands and the operators between them. -/
def chainOf (style : ChainStyle) (operands operators : List Doc) : Except ChainMismatch Doc :=
  match operands with
  | first :: rest =>
    if rest.length = operators.length then .ok (chain style first (operators.zip rest))
    else .error ⟨operators.length + 1, operands.length⟩
  | [] => .error ⟨operators.length + 1, 0⟩

end Doc

end Typeset
