import MarkSweep.Decimal.Layout

/-!
# Floating-point numbers

A floating-point number is kept as the bits of its 64-bit binary format: a sign, eleven bits of
exponent and fifty-two bits of fraction. Nothing is computed with it. What is needed is
comparison, in which zero has no sign and an undefined number equals nothing, and the shortest
text that reads back as the same number.
-/

namespace MarkSweep

/-- A floating-point number, as its bits. -/
structure Double where
  /-- The 64-bit binary format. -/
  bits : UInt64
  deriving DecidableEq, Repr

namespace Double

/-- Whether the sign bit is set. -/
def isNegative (x : Double) : Bool := 0x8000000000000000 ≤ x.bits

/-- The exponent field. -/
def exponentField (x : Double) : Nat := (x.bits >>> 52 &&& 0x7ff).toNat

/-- The fraction field. -/
def fraction (x : Double) : Nat := (x.bits &&& 0xfffffffffffff).toNat

/-- Whether the bits stand for an undefined number. -/
def isNaN (x : Double) : Bool := x.exponentField = 2047 ∧ x.fraction ≠ 0

/-- Whether the number is infinite. -/
def isInfinite (x : Double) : Bool := x.exponentField = 2047 ∧ x.fraction = 0

/-- Whether the number is a zero of either sign. -/
def isZero (x : Double) : Bool := x.exponentField = 0 ∧ x.fraction = 0

/-- Comparison of numbers: an undefined one equals nothing, and the two zeros are equal. -/
def equals (x y : Double) : Bool :=
  !x.isNaN && !y.isNaN && (x.bits = y.bits || (x.isZero && y.isZero))

/-- The magnitude is `significand * 2 ^ binaryExponent`. -/
def significand (x : Double) : Nat :=
  if x.exponentField = 0 then x.fraction else 0x10000000000000 + x.fraction

/-- The power of two that the significand counts. -/
def binaryExponent (x : Double) : Int :=
  if x.exponentField = 0 then -1074 else (x.exponentField : Int) - 1075

/-- The reals that round to the magnitude, counted in quarters of the significand's last place.
The gap below a power of two is half as wide as the gap above it, except at the bottom of the
range, and the ends belong to the interval when the significand is even. -/
def interval (x : Double) : Decimal.Interval :=
  let value := 4 * x.significand
  let gapBelow := if x.fraction = 0 ∧ 1 < x.exponentField then 1 else 2
  let exponent := x.binaryExponent - 2
  let scale := Nat.pow 2 exponent.toNat
  { value := value * scale
    lower := (value - gapBelow) * scale
    upper := (value + 2) * scale
    unit := Nat.pow 2 (-exponent).toNat
    closed := x.significand % 2 = 0 }

/-- Numbers from a ten-thousandth up to, but not including, `10 ^ 16` are written positionally,
with at least one digit after the point; the others have an exponent. -/
def layout : Decimal.Layout := ⟨-4, 16, 'e', true⟩

/-- The text of the magnitude of a defined number. -/
def magnitudeText (x : Double) : String :=
  if x.isInfinite then "inf"
  else if x.isZero then layout.write ⟨0, 0⟩
  else layout.write x.interval.shortest

/-- The text of a number: the shortest decimal that reads back as the same number. -/
def text (x : Double) : String :=
  if x.isNaN then "NaN"
  else if x.isNegative then "-" ++ x.magnitudeText
  else x.magnitudeText

end Double

end MarkSweep
