/-!
# Reading numerals

A numeral of a 64-bit word is one or more decimal digits, possibly after a single plus sign,
with a value below `2 ^ 64`; leading zeros are allowed. A text that is no numeral is refused for
the first defect met from the left. At one and the same character a defect of the character
comes before a defect of the value.
-/

namespace MarkSweep.Text

/-- Why a text is not a numeral. -/
inductive NumeralError where
  /-- The text has no characters. -/
  | empty
  /-- A character is not a digit, or no digit follows the sign. -/
  | invalidDigit
  /-- The value does not fit in a word. -/
  | tooLarge
  deriving DecidableEq, Repr

/-- The wording of a refusal. -/
def NumeralError.message : NumeralError → String
  | empty => "cannot parse integer from empty string"
  | invalidDigit => "invalid digit found in string"
  | tooLarge => "number too large to fit in target type"

/-- The value of a decimal digit. -/
def digit? (c : Char) : Option Nat :=
  if '0' ≤ c ∧ c ≤ '9' then some (c.toNat - '0'.toNat) else none

/-- Reads digits from the left, with `acc` for the value of the digits already read. -/
def readDigits : Nat → List Char → Except NumeralError Nat
  | acc, [] => .ok acc
  | acc, c :: cs =>
    match digit? c with
    | none => .error .invalidDigit
    | some d =>
      if 10 * acc + d < UInt64.size then readDigits (10 * acc + d) cs else .error .tooLarge

/-- The word that a numeral denotes. -/
def readWord : List Char → Except NumeralError UInt64
  | [] => .error .empty
  | ['+'] => .error .invalidDigit
  | '+' :: cs => (readDigits 0 cs).map UInt64.ofNat
  | cs => (readDigits 0 cs).map UInt64.ofNat

end MarkSweep.Text
