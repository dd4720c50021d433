/-!
# Searching a text

Where a run of characters occurs in another. The empty run occurs everywhere: first at the
front and last at the end.

## Main definitions

* `firstIndex?`, `lastIndex?` : the first and the last place of a run.
* `leading?` : the first of some texts that a text starts with.
* `position` : a place as a signed position, where absence is the position `-1`.
-/

namespace Typeset.Text

/-- The place where `needle` first occurs. -/
def firstIndex? (needle : List Char) : List Char → Option Nat
  | [] => if needle.isEmpty then some 0 else none
  | c :: cs =>
    if needle.isPrefixOf (c :: cs) then some 0
    else (firstIndex? needle cs).map (· + 1)

/-- The place where `needle` last occurs. -/
def lastIndex? (needle : List Char) : List Char → Option Nat
  | [] => if needle.isEmpty then some 0 else none
  | c :: cs =>
    match lastIndex? needle cs with
    | some i => some (i + 1)
    | none => if needle.isPrefixOf (c :: cs) then some 0 else none

/-- A place as a signed position: absence is one before the front. -/
def position : Option Nat → Int
  | some i => i
  | none => -1

/-- The first of some texts that a text starts with. -/
def leading? (candidates : List String) (cs : List Char) : Option String :=
  candidates.find? fun s => s.toList.isPrefixOf cs

/-- Whether `needle` occurs in `cs`. -/
def occursIn (needle cs : List Char) : Bool := (firstIndex? needle cs).isSome

end Typeset.Text
