/-!
# Decimal numbers

A decimal number is a whole number of units, each a power of ten. In decimal notation it is
written with its significant digits only and at least one place after the point. When the
point would stand more than sixteen places to the right, or more than three to the left, of
the first digit, it stands after the first digit instead, and an exponent with a sign and at
least two digits follows.

## Main definitions

* `Decimal` : digits and a power of ten.
* `Decimal.written` : a number in decimal notation.
* `Decimal.read?` : the number that a text in decimal notation stands for.
-/

namespace Typeset.Number

/-- A quotient rounded to the nearest whole number; of two that are equally near the even one
is taken. -/
def roundedQuotient (n d : Nat) : Nat :=
  if 2 * (n % d) < d ∨ 2 * (n % d) = d ∧ n / d % 2 = 0 then n / d else n / d + 1

/-- A power of two. -/
def twoTo (n : Nat) : Nat := Nat.pow 2 n

/-- A power of ten. -/
def tenTo (n : Nat) : Nat := Nat.pow 10 n

/-- The number `digits * 10 ^ exponent`. -/
structure Decimal where
  /-- The number of units. -/
  digits : Nat
  /-- The power of ten of a unit. -/
  exponent : Int
  deriving DecidableEq

namespace Decimal

/-- The number as a fraction. -/
def ratio (x : Decimal) : Nat × Nat :=
  (x.digits * tenTo x.exponent.toNat, tenTo (-x.exponent).toNat)

/-- The digits of the units, the first one first. -/
def digitChars (x : Decimal) : List Char := Nat.toDigits 10 x.digits

/-- Where the point stands, counted from the front of the first digit. -/
def point (x : Decimal) : Int := x.digitChars.length + x.exponent

/-- The digits without the zeros at their end. -/
def significant (x : Decimal) : List Char :=
  (x.digitChars.reverse.dropWhile (· = '0')).reverse

/-! ### Writing -/

/-- Digits with the point at the given place among, before or after them. -/
def positional (ds : List Char) (point : Int) : List Char :=
  if point ≤ 0 then '0' :: '.' :: List.replicate (-point).toNat '0' ++ ds
  else
    let n := point.toNat
    ds.take n ++ List.replicate (n - ds.length) '0' ++ '.' ::
      (if ds.length ≤ n then ['0'] else ds.drop n)

/-- Digits with the point after the first of them, and an exponent. -/
def scientific (ds : List Char) (point : Int) : List Char :=
  let e := point - 1
  let es := Nat.toDigits 10 e.natAbs
  ds.take 1 ++ (if ds.length ≤ 1 then [] else '.' :: ds.drop 1) ++
    'e' :: (if e < 0 then '-' else '+') :: List.replicate (2 - es.length) '0' ++ es

/-- A number in decimal notation. -/
def written (x : Decimal) : List Char :=
  if x.digits = 0 then ['0', '.', '0']
  else if -4 < x.point ∧ x.point ≤ 16 then positional x.significant x.point
  else scientific x.significant x.point

/-! ### Reading -/

/-- The whole number of some digits from `0` to `9`. -/
def ofDigitChars (ds : List Char) : Nat := ds.foldl (fun n c => 10 * n + (c.toNat - '0'.toNat)) 0

/-- The whole number that a text of nothing but digits stands for. -/
def readWhole? (cs : List Char) : Option Nat :=
  if cs.isEmpty || !cs.all Char.isDigit then none else some (ofDigitChars cs)

/-- The exponent at the end of a text: none is zero. -/
def readExponent? : List Char → Option Int
  | [] => some 0
  | c :: cs =>
    if c = 'e' ∨ c = 'E' then
      match cs with
      | '-' :: ds => (readWhole? ds).map fun n => -(n : Int)
      | '+' :: ds => (readWhole? ds).map Int.ofNat
      | ds => (readWhole? ds).map Int.ofNat
    else none

/-- The places after the point, and what follows them. -/
def splitPlaces : List Char → List Char × List Char
  | '.' :: cs => (cs.takeWhile Char.isDigit, cs.dropWhile Char.isDigit)
  | cs => ([], cs)

/-- The number that a text without a sign stands for: digits, then places after a point and
an exponent if there are any. -/
def read? (cs : List Char) : Option Decimal := do
  let whole := cs.takeWhile Char.isDigit
  let (places, rest) := splitPlaces (cs.dropWhile Char.isDigit)
  let exponent ← readExponent? rest
  if whole.isEmpty then none
  else some ⟨ofDigitChars (whole ++ places), exponent - places.length⟩

end Decimal

end Typeset.Number
