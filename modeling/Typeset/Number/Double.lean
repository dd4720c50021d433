import Typeset.Number.Decimal

/-!
# Numbers of double precision

A number of double precision is zero or a whole number of at most 53 binary digits times a
power of two, with a sign, or one of the two infinities, or undefined. Zero has a sign too.

A decimal number stands for the nearest number of double precision; of two that are equally
near it stands for the one with the even mantissa. A number too large for any stands for an
infinity. All of this is computed in whole numbers.

## Main definitions

* `Magnitude` : a mantissa and a power of two.
* `Magnitude.nearest?` : the magnitude nearest to a decimal number.
* `Double` : numbers of double precision.
* `Double.read?` : the number that a text in decimal notation stands for.
-/

namespace Typeset.Number

/-- The number `mantissa * 2 ^ exponent`. -/
structure Magnitude where
  /-- The number of units. -/
  mantissa : Nat
  /-- The power of two of a unit. -/
  exponent : Int
  deriving DecidableEq

namespace Magnitude

/-- The smallest power of two of a unit. -/
def leastExponent : Int := -1074

/-- The largest power of two of a unit. -/
def greatestExponent : Int := 971

/-- The least mantissa of full length. -/
def fullMantissa : Nat := twoTo 52

/-- Zero. -/
def zero : Magnitude := ⟨0, leastExponent⟩

/-- The number as a fraction. -/
def ratio (x : Magnitude) : Nat × Nat :=
  (x.mantissa * twoTo x.exponent.toNat, twoTo (-x.exponent).toNat)

/-- The greatest power of two that a fraction other than zero reaches. -/
def leadingPower (n d : Nat) : Int :=
  let e : Int := (n.log2 : Int) - d.log2
  if n * twoTo (-e).toNat < d * twoTo e.toNat then e - 1 else e

/-- The magnitude with a mantissa that may have come to one binary digit too many. -/
def carried (mantissa : Nat) (exponent : Int) : Magnitude :=
  if mantissa = 2 * fullMantissa then ⟨fullMantissa, exponent + 1⟩ else ⟨mantissa, exponent⟩

/-- The magnitude nearest to a fraction other than zero, were there no greatest exponent. -/
def rounded (n d : Nat) : Magnitude :=
  let e := max (leadingPower n d - 52) leastExponent
  carried (roundedQuotient (n * twoTo (-e).toNat) (d * twoTo e.toNat)) e

/-- The magnitude nearest to a decimal number, if it is not too large for any. Numbers whose
point stands far from their first digit are decided without computing the power of ten. -/
def nearest? (x : Decimal) : Option Magnitude :=
  if x.digits = 0 ∨ x.point < -330 then some zero
  else if 330 < x.point then none
  else
    let m := rounded x.ratio.1 x.ratio.2
    if greatestExponent < m.exponent then none else some m

end Magnitude

/-- A number of double precision. -/
inductive Double where
  /-- A magnitude with a sign. -/
  | finite (negative : Bool) (magnitude : Magnitude)
  /-- An infinity with a sign. -/
  | infinite (negative : Bool)
  /-- The value of an operation that has none. -/
  | undefined
  deriving DecidableEq

namespace Double

/-- The number nearest to a decimal number with a sign. -/
def nearest (negative : Bool) (x : Decimal) : Double :=
  match Magnitude.nearest? x with
  | some m => finite negative m
  | none => infinite negative

/-- The number that a text in decimal notation stands for. -/
def read? : List Char → Option Double
  | '-' :: cs => (Decimal.read? cs).map (nearest true)
  | cs => (Decimal.read? cs).map (nearest false)

end Double

end Typeset.Number
