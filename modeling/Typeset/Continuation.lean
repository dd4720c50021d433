import Typeset.Print.Error
import Typeset.Tree.Path

/-!
# Continuation indentation

When an expression breaks over several lines, its continuation lines need one level of
indentation relative to what they continue. If every rule indented on its own, nested
expressions would form a staircase. A policy says, for the nodes above a place in the tree,
who has opened the level: walking up, a node that claims the level makes the place a
continuation, a boundary makes it a fresh start, and a transparent node is passed by.

## Main definitions

* `Role` : what a node above means for the level.
* `Policy` : the tables that give roles, by kind and by precedence class.
* `Policy.classify`, `Policy.isContinuation` : the role of one node, and the walk up.
* `Policy.unwrap` : the node inside of single-child wrappers.
-/

namespace Typeset

/-- What a node above a place means for the indentation of the place. -/
inductive Role where
  /-- The node indents its content already. -/
  | claims
  /-- The node starts afresh, and continuation lines below it indent. -/
  | boundary
  /-- The node does not matter; the next one above decides. -/
  | transparent
  deriving DecidableEq

/-- The name of a role. -/
def Role.label : Role → String
  | claims => "claims"
  | boundary => "boundary"
  | transparent => "transparent"

/-- Which kinds of nodes have which roles. Precedence classes are values of `κ`. -/
structure Policy (κ : Type) where
  /-- Nodes that indent their content: groups in parentheses, bindings of names. -/
  claiming : List String := []
  /-- Declarations, statements, argument lists. Kinds that are not listed count as well. -/
  boundary : List String := []
  /-- Wrappers without a layout of their own. -/
  transparent : List String := []
  /-- Conditional expressions: they claim the level for their values and are a boundary for
  their condition. -/
  conditional : List String := []
  /-- The indices at which conditional expressions have their condition. -/
  conditionIndices : List Int := [0]
  /-- Binary operators: one of the same precedence class claims the level, others are
  transparent. -/
  binary : List String := []
  /-- The precedence class of a binary operator. -/
  classOf : Node → Except PrintError (Option κ) := fun _ => .ok none

namespace Policy

variable {κ : Type} [DecidableEq κ] (P : Policy κ)

/-- The precedence class of a node; a node that is not a binary operator has none. -/
def precedence (n : Node) : Except PrintError (Option κ) :=
  if P.binary.contains n.kind then P.classOf n else return none

/-- The role of a binary operator for a subject below it. -/
def classifyBinary (ancestor subject : Node) : Except PrintError Role := do
  match ← P.precedence subject with
  | none => return .transparent
  | some k =>
    if (← P.precedence ancestor) = some k then return .claims else return .transparent

/-- The role of a node for a walk that starts at `subject` and reaches the node through its
child at `index`. -/
def classify (ancestor : Node) (index : Option Int) (subject : Node) :
    Except PrintError Role :=
  if P.binary.contains ancestor.kind then P.classifyBinary ancestor subject
  else if P.conditional.contains ancestor.kind then
    return if index.any P.conditionIndices.contains then .boundary else .claims
  else if P.claiming.contains ancestor.kind then return .claims
  else if P.boundary.contains ancestor.kind then return .boundary
  else if P.transparent.contains ancestor.kind then return .transparent
  else return .boundary

/-- Walks up from a subject until a node decides whether it is a continuation. -/
def decideAbove (subject : Node) : List Turn → Except PrintError Bool
  | [] => return false
  | turn :: above => do
    match ← P.classify turn.node (some turn.index) subject with
    | .claims => return true
    | .boundary => return false
    | .transparent => decideAbove subject above

/-- Whether a node above has opened the indentation level that continuation lines at the path
use. -/
def isContinuation (p : Path) : Except PrintError Bool := P.decideAbove p.node p.above

/-- The path inside of transparent wrappers with a single child. -/
def unwrap (p : Path) : Path :=
  match _h : p.node.children with
  | [c] => if P.transparent.contains p.node.kind then unwrap (p.down c 0) else p
  | _ => p
termination_by p.node.size
decreasing_by exact Node.size_lt_of_mem (by simp [_h])

omit [DecidableEq κ] in
theorem size_unwrap_le (p : Path) : (P.unwrap p).node.size ≤ p.node.size := by
  fun_induction unwrap P p with
  | case1 p c hc _ ih =>
    have : c.size < p.node.size := Node.size_lt_of_mem (by simp [hc])
    exact Nat.le_trans ih (Nat.le_of_lt this)
  | case2 => exact Nat.le_refl _
  | case3 => exact Nat.le_refl _

end Policy

end Typeset
