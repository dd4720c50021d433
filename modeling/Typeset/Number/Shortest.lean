import Typeset.Number.Double

/-!
# Shortest decimal numbers

A number of double precision is written with the fewest digits from which it can be read
back. The numbers that read back to it lie between the midpoints to its two neighbours, the
midpoints included when its mantissa is even. For one digit, two digits and so on up to
seventeen, the two decimal numbers with so many digits next to the number are tried: the
nearer one first, or of two that are equally near the even one.

## Main definitions

* `Magnitude.readsBack` : the decimal numbers that stand for a magnitude.
* `Magnitude.shortest` : the shortest decimal number that reads back.
* `Double.written` : the text of a number.
-/

namespace Typeset.Number

namespace Magnitude

/-- Whether the neighbour below is only half as far away as the neighbour above. -/
def isNarrowBelow (x : Magnitude) : Bool :=
  x.mantissa = fullMantissa && leastExponent < x.exponent

/-- The midpoint to the neighbour below, in quarters of a unit. -/
def lowerMidpoint (x : Magnitude) : Magnitude :=
  ⟨4 * x.mantissa - (if x.isNarrowBelow then 1 else 2), x.exponent - 2⟩

/-- The midpoint to the neighbour above, in quarters of a unit. -/
def upperMidpoint (x : Magnitude) : Magnitude := ⟨4 * x.mantissa + 2, x.exponent - 2⟩

/-- How a magnitude compares with a decimal number. -/
def compareWith (x : Magnitude) (d : Decimal) : Ordering :=
  compare (x.ratio.1 * d.ratio.2) (d.ratio.1 * x.ratio.2)

/-- Whether a decimal number stands for a magnitude. -/
def readsBack (x : Magnitude) (d : Decimal) : Bool :=
  let low := x.lowerMidpoint.compareWith d
  let high := x.upperMidpoint.compareWith d
  if x.mantissa % 2 = 0 then low ≠ .gt && high ≠ .lt else low = .lt && high = .gt

/-- The places after the point that show the first digit of every magnitude. -/
def placesOfLeast : Nat := 330

/-- Where the point stands, counted from the front of the first digit. -/
def point (x : Magnitude) : Int :=
  (Nat.toDigits 10 (x.ratio.1 * tenTo placesOfLeast / x.ratio.2)).length - placesOfLeast

/-- The multiples of a power of ten that are next to a magnitude, the nearest one first. -/
def neighbours (x : Magnitude) (exponent : Int) : List Decimal :=
  let unit : Decimal := ⟨1, exponent⟩
  let n := x.ratio.1 * unit.ratio.2
  let d := x.ratio.2 * unit.ratio.1
  [roundedQuotient n d, n / d, n / d + 1].map fun k => ⟨k, exponent⟩

/-- A magnitude as a decimal number, with all of its digits. -/
def exact (x : Magnitude) : Decimal :=
  ⟨x.mantissa * twoTo x.exponent.toNat * Nat.pow 5 (-x.exponent).toNat, min x.exponent 0⟩

/-- The shortest decimal number that reads back to a magnitude, and the nearest of these. -/
def shortest (x : Magnitude) : Decimal :=
  if x.mantissa = 0 then ⟨0, 0⟩
  else
    let point := x.point
    let ofLength? (digits : Nat) : Option Decimal :=
      (x.neighbours (point - digits)).find? x.readsBack
    ((List.range' 1 17).findSome? ofLength?).getD x.exact

end Magnitude

namespace Double

/-- A text after a minus sign, if the number is negative. -/
def signed (negative : Bool) (cs : List Char) : String :=
  String.ofList (if negative then '-' :: cs else cs)

/-- The text of a number. -/
def written : Double → String
  | finite negative m => signed negative m.shortest.written
  | infinite negative => signed negative ['i', 'n', 'f']
  | undefined => "nan"

end Double

end Typeset.Number
