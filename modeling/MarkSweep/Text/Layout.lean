/-!
# Layout of values

Numbers in base sixteen have lower-case digits and are marked `0x`. Structured values are shown on
one line: a record is its name followed by its fields in braces, an applied constructor is its name
followed by its argument in parentheses, and a sequence stands in square brackets. The functions for
these lay out parts that are already text.
-/

namespace MarkSweep.Text

/-- The numeral of `n` in base sixteen, without leading zeros. -/
def hex (n : Nat) : String := "0x" ++ String.ofList (Nat.toDigits 16 n)

/-- The numeral of `n` in base sixteen, padded with zeros to `width` digits. -/
def hexPadded (width n : Nat) : String :=
  "0x" ++ String.ofList ((Nat.toDigits 16 n).leftpad width '0')

/-- The parts in order, separated by commas. -/
def commas (parts : List String) : String := ", ".intercalate parts

/-- A field of a record: its name and its value. -/
def field (name value : String) : String := name ++ ": " ++ value

/-- A record with all its fields, in order. -/
def record (name : String) (fields : List (String × String)) : String :=
  name ++ " \x7b " ++ commas (fields.map fun f => field f.1 f.2) ++ " \x7d"

/-- A record that shows some of its fields only, which closing dots make visible. -/
def openRecord (name : String) (fields : List (String × String)) : String :=
  name ++ " \x7b " ++ commas ((fields.map fun f => field f.1 f.2) ++ [".."]) ++ " \x7d"

/-- A constructor applied to one argument. -/
def applied (name argument : String) : String := name ++ "(" ++ argument ++ ")"

/-- A sequence. -/
def sequence (parts : List String) : String := "[" ++ commas parts ++ "]"

/-- A value that may be absent. -/
def optional : Option String → String
  | none => "None"
  | some value => applied "Some" value

/-- A truth value. -/
def truth (b : Bool) : String := if b then "true" else "false"

end MarkSweep.Text
