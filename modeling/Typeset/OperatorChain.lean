import Typeset.Continuation

/-!
# Operator chains in a syntax tree

Binary operators of one precedence class that stand inside each other, to the left or to the
right, are one chain: its operands in source order and the operators between them. Wrappers
around an operator are looked through; operands of another class are not opened.

The tree is walked with an explicit stack whose next entry is the next one in source order.

## Main definitions

* `Flattened` : a single operand, or a chain whose operands lie below the path.
* `Policy.flatten` : the chain at a path.
-/

namespace Typeset

/-- An entry of the walk over a chain at `p`. -/
inductive ChainEntry (p : Path) where
  /-- A place that may have to be opened. -/
  | place (q : Below p)
  /-- An operator. -/
  | operator (s : String)

/-- A measure of the work that the entries of a walk stand for. -/
def chainWork {p : Path} : List (ChainEntry p) → Nat
  | [] => 0
  | .place q :: rest => 2 * q.1.node.size + chainWork rest
  | .operator _ :: rest => 1 + chainWork rest

/-- The chain at a path. -/
inductive Flattened (p : Path) where
  /-- The path is no chain and so its only operand. -/
  | single
  /-- The operands and the operators between them, in source order. -/
  | chain (operands : List (Below p)) (operators : List String)

namespace Flattened

variable {p : Path}

/-- The paths of the operands. -/
def operands : Flattened p → List Path
  | single => [p]
  | chain operands _ => operands.map (·.1)

/-- The operators. -/
def operators : Flattened p → List String
  | single => []
  | chain _ operators => operators

end Flattened

namespace Policy

variable {κ : Type} [DecidableEq κ] (P : Policy κ)
  (operatorOf : Node → Except PrintError String)

/-- The operands of a path with two children, and the operator between them. -/
def opened {p : Path} (inner : Path) (h : inner.node.size ≤ p.node.size) (left right : Node)
    (hc : inner.node.children = [left, right]) (operator : String) : List (ChainEntry p) :=
  [.place ⟨inner.down left 0, Nat.lt_of_lt_of_le (Node.size_lt_of_mem (by simp [hc])) h⟩,
   .operator operator,
   .place ⟨inner.down right 1, Nat.lt_of_lt_of_le (Node.size_lt_of_mem (by simp [hc])) h⟩]

/-- The operands and operators of the entries of a walk, where operators of the class `k` are
opened. -/
def flattenFrom {p : Path} (k : κ) :
    List (ChainEntry p) → Except PrintError (List (Below p) × List String)
  | [] => return ([], [])
  | .operator s :: rest => do
    let (operands, operators) ← flattenFrom k rest
    return (operands, s :: operators)
  | .place q :: rest =>
    let inner := P.unwrap q.1
    match _h : inner.node.children with
    | [left, right] => do
      if (← P.precedence inner.node) = some k then
        let operator ← operatorOf inner.node
        flattenFrom k
          (opened inner (Nat.le_of_lt (Nat.lt_of_le_of_lt (P.size_unwrap_le q.1) q.2))
            left right _h operator ++ rest)
      else
        let (operands, operators) ← flattenFrom k rest
        return (q :: operands, operators)
    | _ => do
      let (operands, operators) ← flattenFrom k rest
      return (q :: operands, operators)
termination_by entries => chainWork entries
decreasing_by
  · simp [chainWork]
  · have h := P.size_unwrap_le q.1
    have hs : (P.unwrap q.1).node.size = 1 + (left.size + right.size) := by
      rw [Node.size_eq, _h]
      simp [Node.sizeAll]
    simp only [opened, List.cons_append, List.nil_append, chainWork, Path.down]
    omega
  · have := q.1.node.size_pos
    simp only [chainWork]
    omega
  · have := q.1.node.size_pos
    simp only [chainWork]
    omega

/-- The chain at a path: binary operators of the class of the path, as far as they stand
inside each other. -/
def flatten (p : Path) : Except PrintError (Flattened p) := do
  let inner := P.unwrap p
  match ← P.precedence inner.node with
  | none => return .single
  | some k =>
    match h : inner.node.children with
    | [left, right] => do
      let operator ← operatorOf inner.node
      let (operands, operators) ← flattenFrom P operatorOf k
        (opened inner (P.size_unwrap_le p) left right h operator)
      return .chain operands operators
    | _ => return .single

end Policy

end Typeset
