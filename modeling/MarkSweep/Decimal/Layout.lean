import MarkSweep.Decimal.Shortest

/-!
# Written decimals

A decimal is written either positionally or with a mark and an exponent. A `Layout` records the
decisions: for which exponents of the leading digit the positional form is used, the mark, and
whether a whole number in positional form keeps a fraction of one zero.
-/

namespace MarkSweep.Decimal

/-- How decimals are written. -/
structure Layout where
  /-- The least exponent of the leading digit that is written positionally. -/
  least : Int
  /-- The exponents of the leading digit below this bound are written positionally. -/
  bound : Int
  /-- The mark in front of an exponent. -/
  mark : Char
  /-- Whether a whole number in positional form has the fraction `.0`. -/
  wholeFraction : Bool
  deriving DecidableEq, Repr

/-- The digits of a coefficient without trailing zeros; zero keeps its one digit. -/
def significantDigits (coefficient : Nat) : List Char :=
  match ((Nat.toDigits 10 coefficient).reverse.dropWhile (· == '0')).reverse with
  | [] => ['0']
  | digits => digits

/-- The exponent of ten of the leading digit. -/
def leading (d : Decimal) : Int :=
  ((Nat.toDigits 10 d.coefficient).length : Int) - 1 + d.exponent

namespace Layout

/-- Digits in positional form, where the first one counts `10 ^ leading`. -/
def positional (l : Layout) (digits : List Char) (leading : Int) : List Char :=
  if leading < 0 then
    "0.".toList ++ List.replicate (-leading - 1).toNat '0' ++ digits
  else
    let whole := leading.toNat + 1
    if digits.length ≤ whole then
      digits ++ List.replicate (whole - digits.length) '0' ++
        (if l.wholeFraction then ".0".toList else [])
    else
      digits.take whole ++ '.' :: digits.drop whole

/-- Digits with an exponent: a point after the first digit if more follow. -/
def scientific (l : Layout) (digits : List Char) (leading : Int) : List Char :=
  let mantissa :=
    match digits with
    | first :: second :: rest => first :: '.' :: second :: rest
    | _ => digits
  mantissa ++ l.mark :: (toString leading).toList

/-- The text of a decimal. -/
def write (l : Layout) (d : Decimal) : String :=
  let digits := significantDigits d.coefficient
  String.ofList <|
    if l.least ≤ d.leading ∧ d.leading < l.bound then l.positional digits d.leading
    else l.scientific digits d.leading

end Layout

end MarkSweep.Decimal
