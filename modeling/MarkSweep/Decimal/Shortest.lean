/-!
# Shortest decimals

A stored number stands for every real number that rounds to it, and those form an interval
around it. `Interval.shortest` finds the decimal with the fewest digits in that interval, and of
several the one closest to the number; of two that are equally close it takes the greater.

The search goes from one digit upwards. With `n` digits the candidates lie on a grid, and if any
point of the grid is in the interval then so is one of the number's two neighbours on it; so two
tests decide each grid. All tests compare natural numbers.
-/

namespace MarkSweep

/-- The decimal number `coefficient * 10 ^ exponent`. -/
structure Decimal where
  /-- The digits, read as one number. -/
  coefficient : Nat
  /-- The power of ten that the coefficient counts. -/
  exponent : Int
  deriving DecidableEq, Repr

namespace Decimal

/-- A positive number `value / unit` between the ends `lower / unit` and `upper / unit` of the
interval of the reals that round to it. -/
structure Interval where
  /-- The number, counted in units. -/
  value : Nat
  /-- The lower end, counted in units. -/
  lower : Nat
  /-- The upper end, counted in units. -/
  upper : Nat
  /-- The number of units in one. -/
  unit : Nat
  /-- Whether the ends belong to the interval. -/
  closed : Bool
  deriving Repr

namespace Interval

/-- The interval divided by `10 ^ exponent`, so that the grid of that power becomes the natural
numbers. -/
def onGrid (i : Interval) (exponent : Int) : Interval :=
  if 0 ≤ exponent then
    { i with unit := i.unit * Nat.pow 10 exponent.toNat }
  else
    let factor := Nat.pow 10 (-exponent).toNat
    { i with value := i.value * factor, lower := i.lower * factor, upper := i.upper * factor }

/-- Whether the natural number `d` lies in the interval. -/
def contains (i : Interval) (d : Nat) : Bool :=
  if i.closed then i.lower ≤ d * i.unit && d * i.unit ≤ i.upper
  else i.lower < d * i.unit && d * i.unit < i.upper

/-- The natural number of the interval that is closest to the value, the greater one of two. -/
def nearest? (i : Interval) : Option Nat :=
  let below := i.value / i.unit
  match i.contains below, i.contains (below + 1) with
  | true, true => some (if 2 * (i.value % i.unit) < i.unit then below else below + 1)
  | true, false => some below
  | false, true => some (below + 1)
  | false, false => none

/-- The exponent of ten of the value's leading digit. -/
def leadingExponent (i : Interval) : Int :=
  if i.unit ≤ i.value then ((Nat.toDigits 10 (i.value / i.unit)).length : Int) - 1
  else -((Nat.toDigits 10 ((i.unit - 1) / i.value)).length : Int)

/-- Tries grids of `10 ^ exponent`, then of lower powers, for as long as `tries` says. -/
def search (i : Interval) : (tries : Nat) → (exponent : Int) → Decimal
  | 0, exponent => ⟨(i.onGrid exponent).value / (i.onGrid exponent).unit, exponent⟩
  | tries + 1, exponent =>
    match (i.onGrid exponent).nearest? with
    | some d => ⟨d, exponent⟩
    | none => i.search tries (exponent - 1)

/-- The decimal with the fewest digits in the interval, the closest to the value of several.
Seventeen digits tell any two stored numbers apart, so the search ends by the seventeenth grid. -/
def shortest (i : Interval) : Decimal := i.search 17 i.leadingExponent

end Interval

end Decimal

end MarkSweep
