import Typeset.Print.Error
import Typeset.Tree.Path

/-!
# Printing

Printing a tree can fail, and it counts the nodes that were printed. The count of a sequence
of steps is the sum of their counts, so that what a step prints does not depend on the
steps before it.

## Main definitions

* `Printing` : a result with a count of printed nodes, or an error.
* `Printing.all`, `Printing.collect`, `Printing.collectFrom` : steps for every element of a
  list.
-/

namespace Typeset

/-- A result and the number of nodes printed for it, or an error. -/
def Printing (α : Type) := Except PrintError (α × Nat)

namespace Printing

variable {α β σ : Type}

/-- A result for which no node is printed. -/
def done (a : α) : Printing α := .ok (a, 0)

/-- A failure. -/
def fail (e : PrintError) : Printing α := .error e

/-- One step after another. -/
def andThen (x : Printing α) (f : α → Printing β) : Printing β :=
  match x with
  | .error e => .error e
  | .ok (a, n) =>
    match f a with
    | .error e => .error e
    | .ok (b, m) => .ok (b, n + m)

instance : Monad Printing where
  pure := done
  bind := andThen

/-- Counts a node. -/
def tick : Printing Unit := .ok ((), 1)

/-- A computation that prints no node. -/
def lift (x : Except PrintError α) : Printing α :=
  match x with
  | .error e => .error e
  | .ok a => .ok (a, 0)

/-- A value that must be there. -/
def need (e : PrintError) : Option α → Printing α
  | none => fail e
  | some a => done a

/-- The results of a step for every element of a list, in order. -/
def all (f : α → Printing β) : List α → Printing (List β)
  | [] => return []
  | a :: as => do
    let b ← f a
    let bs ← all f as
    return b :: bs

/-- The results of a step that gives several of them for every element of a list. -/
def collect (f : α → Printing (List β)) : List α → Printing (List β)
  | [] => return []
  | a :: as => do
    let b ← f a
    let bs ← collect f as
    return b ++ bs

/-- The results of a step that depends on the elements before it: `next` is the state after
an element. -/
def collectFrom (next : σ → α → σ) (f : σ → α → Printing (List β)) :
    σ → List α → Printing (List β)
  | _, [] => return []
  | s, a :: as => do
    let b ← f s a
    let bs ← collectFrom next f (next s a) as
    return b ++ bs

end Printing

end Typeset
