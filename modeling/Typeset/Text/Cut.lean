/-!
# Cutting a list at signed positions

A position counts from the front when it is not negative and from the end otherwise. A cut
clamps both of its ends to the list; looking up a single element does not clamp.

## Main definitions

* `cut` : the elements from one position up to another.
* `element?` : the element at a position.
-/

namespace Typeset.Text

/-- The place of position `i` in a list of `n` elements, clamped to its ends. -/
def place (n : Nat) (i : Int) : Nat :=
  if i < 0 then (n + i).toNat else min i.toNat n

/-- The elements from position `first` up to position `last`, excluded. -/
def cut {α : Type} (xs : List α) (first last : Int) : List α :=
  (xs.take (place xs.length last)).drop (place xs.length first)

/-- The elements before position `last`. -/
def cutBefore {α : Type} (xs : List α) (last : Int) : List α :=
  xs.take (place xs.length last)

/-- The elements from position `first` on. -/
def cutFrom {α : Type} (xs : List α) (first : Int) : List α :=
  xs.drop (place xs.length first)

/-- The element at position `i`, if the list has one there. -/
def element? {α : Type} (xs : List α) (i : Int) : Option α :=
  if 0 ≤ i then xs[i.toNat]?
  else if 0 ≤ xs.length + i then xs[(xs.length + i).toNat]?
  else none

end Typeset.Text
