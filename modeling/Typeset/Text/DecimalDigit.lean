import Typeset.Text.Blank

/-!
# Decimal digits and whole numbers

Every decimal digit of Unicode 14 belongs to a run of ten that starts at the digit zero, so
the table lists the zeros alone.

A whole number is written as an optional sign and digits of any script, where one low line
may stand between two digits; blanks around it are ignored, except the information
separators, which are not accepted there. More than `maxDigits` digits are refused.

## Main definitions

* `digitValue?` : the value of a decimal digit.
* `readInt?` : the integer that a text spells.
-/

namespace Typeset.Text

/-- The code points of the zeros of all decimal digit runs. -/
def digitZeros : List Nat :=
  [0x30, 0x660, 0x6f0, 0x7c0, 0x966, 0x9e6, 0xa66, 0xae6, 0xb66, 0xbe6, 0xc66, 0xce6, 0xd66,
   0xde6, 0xe50, 0xed0, 0xf20, 0x1040, 0x1090, 0x17e0, 0x1810, 0x1946, 0x19d0, 0x1a80, 0x1a90,
   0x1b50, 0x1bb0, 0x1c40, 0x1c50, 0xa620, 0xa8d0, 0xa900, 0xa9d0, 0xa9f0, 0xaa50, 0xabf0, 0xff10,
   0x104a0, 0x10d30, 0x11066, 0x110f0, 0x11136, 0x111d0, 0x112f0, 0x11450, 0x114d0, 0x11650,
   0x116c0, 0x11730, 0x118e0, 0x11950, 0x11c50, 0x11d50, 0x11da0, 0x16a60, 0x16ac0, 0x16b50,
   0x1d7ce, 0x1d7d8, 0x1d7e2, 0x1d7ec, 0x1d7f6, 0x1e140, 0x1e2f0, 0x1e950, 0x1fbf0]

/-- The value of a decimal digit. -/
def digitValue? (c : Char) : Option Nat :=
  (digitZeros.find? fun z => z ≤ c.toNat && c.toNat < z + 10).map (c.toNat - ·)

/-- The largest number of digits that a whole number may have. -/
def maxDigits : Nat := 4300

/-- The digits of a number after its first one: each may follow a single low line. -/
def moreDigits? : List Char → Option (List Nat)
  | [] => some []
  | '_' :: c :: cs => do
    let d ← digitValue? c
    let ds ← moreDigits? cs
    return d :: ds
  | c :: cs => do
    let d ← digitValue? c
    let ds ← moreDigits? cs
    return d :: ds

/-- The digits of a number: at least one, and no low line in front. -/
def digits? : List Char → Option (List Nat)
  | [] => none
  | c :: cs => do
    let d ← digitValue? c
    let ds ← moreDigits? cs
    return d :: ds

/-- The number with the given decimal digits, most significant first. -/
def ofDigits (ds : List Nat) : Nat := ds.foldl (fun n d => 10 * n + d) 0

/-- The number that a run of digits spells. -/
def readNat? (cs : List Char) : Option Nat := do
  let ds ← digits? cs
  if ds.length ≤ maxDigits then some (ofDigits ds) else none

/-- Blanks that may surround a number: all but the information separators. -/
def isNumberBlank (c : Char) : Bool := isBlank c && !(0x1c ≤ c.toNat && c.toNat ≤ 0x1f)

/-- The integer that a text spells, blanks around it aside. -/
def readInt? (s : String) : Option Int :=
  let inner := ((s.toList.dropWhile isNumberBlank).reverse.dropWhile isNumberBlank).reverse
  match inner with
  | '-' :: cs => (readNat? cs).map fun n => -(n : Int)
  | '+' :: cs => (readNat? cs).map Int.ofNat
  | cs => (readNat? cs).map Int.ofNat

end Typeset.Text
