/-!
# The shortest decimal of a double

A finite double stands for one real number, and every real closer to it than to its neighbours
reads back as it.  Among the decimals with the fewest digits in that interval, the shortest form
is the nearest one.  Everything is exact arithmetic on natural numbers: the value is a quotient
`num / den`, and so are the two ends of the interval.
-/

set_option autoImplicit false

namespace Uplift.Decimal

/-- A positive decimal `d₁.d₂d₃… × 10^exponent`; `digits` is `d₁d₂d₃…` read as one number of
`length` digits. -/
structure Scientific where
  digits : Nat
  length : Nat
  exponent : Int
  deriving DecidableEq, Repr

/-- The number of decimal digits of a natural number; zero has one. -/
def digitCount (n : Nat) : Nat :=
  (Nat.toDigits 10 n).length

/-- The exponent `e` with `10^e ≤ num / den < 10^(e + 1)`, for positive `num` and `den`. -/
def magnitude (num den : Nat) : Int :=
  if den ≤ num then (digitCount (num / den) : Int) - 1
  else
    let places := digitCount (den / num)
    if den ≤ num * Nat.pow 10 (places - 1) then -((places - 1 : Nat) : Int) else -(places : Int)

/-- The positive double `mantissa · 2^exponent` as a quotient, and the ends of the interval of
reals that round to it.  All are over the same denominator. -/
structure Interval where
  low : Nat
  value : Nat
  high : Nat
  den : Nat
  /-- Whether the ends themselves round to the value. -/
  closed : Bool
  deriving DecidableEq, Repr

/-- The interval of a double.  The lower neighbour of a power of two is half as far away as the
upper one, unless the double is among the smallest. -/
def Interval.ofParts (mantissa : Nat) (exponent : Int) (narrow : Bool) : Interval :=
  let scale := Nat.pow 2 (exponent - 2).toNat
  { low := (4 * mantissa - (if narrow then 1 else 2)) * scale
    value := 4 * mantissa * scale
    high := (4 * mantissa + 2) * scale
    den := Nat.pow 2 (2 - exponent).toNat
    closed := mantissa % 2 == 0 }

/-- Whether the decimal `digits · 10^place` lies in the interval. -/
def Interval.contains (interval : Interval) (digits : Nat) (place : Int) : Bool :=
  let num := digits * Nat.pow 10 place.toNat * interval.den
  let unit := Nat.pow 10 (-place).toNat
  if interval.closed then interval.low * unit ≤ num && num ≤ interval.high * unit
  else interval.low * unit < num && num < interval.high * unit

/-- The decimal with at most `length` digits nearest to the value, if it or its neighbour on the
same grid reads back; a tie goes to the even digit. -/
def Interval.onGrid (interval : Interval) (length : Nat) : Option Scientific :=
  let top := magnitude interval.value interval.den
  let place := top - (length : Int) + 1
  let num := interval.value * Nat.pow 10 (-place).toNat
  let den := interval.den * Nat.pow 10 place.toNat
  let below := num / den
  let above := below + 1
  let answer (digits : Nat) : Scientific :=
    if digits = Nat.pow 10 length then ⟨Nat.pow 10 (length - 1), length, top + 1⟩
    else ⟨digits, length, top⟩
  let okBelow := below ≠ 0 ∧ interval.contains below place
  let okAbove := interval.contains above place
  if okBelow ∧ okAbove then
    let twice := 2 * (num % den)
    if twice < den ∨ (twice = den ∧ below % 2 = 0) then some (answer below) else some (answer above)
  else if okBelow then some (answer below)
  else if okAbove then some (answer above)
  else none

/-- The first grid, from one digit to `limit` digits, with a decimal that reads back. -/
def Interval.search (interval : Interval) (limit : Nat) : Option Scientific :=
  (List.range limit).findSome? fun n => interval.onGrid (n + 1)

/-- The shortest decimal of a finite double other than zero, without its sign, from the bits of
the double.  Seventeen digits always suffice. -/
def shortest (bits : UInt64) : Scientific :=
  let fraction := (bits &&& 0xFFFFFFFFFFFFF).toNat
  let biased := ((bits >>> 52) &&& 0x7FF).toNat
  let interval :=
    if biased = 0 then Interval.ofParts fraction (-1074) false
    else
      Interval.ofParts (fraction + 0x10000000000000) ((biased : Int) - 1075)
        (fraction = 0 ∧ biased > 1)
  (interval.search 17).getD ⟨0, 1, 0⟩

end Uplift.Decimal
