import MarkSweep.Text.Layout

/-!
# Kinds of heap object

Every heap object has one of eight kinds, and its header holds the kind as a raw tag word. The
words are consecutive and start at `Tag.reserved`, so that small integers stay free for the
discriminants that programs store in the payload of a tagged value. The set of words is closed:
`Tag.ofRaw_raw` and `Tag.raw_of_ofRaw` say that decoding accepts exactly the eight of them.
-/

namespace MarkSweep

/-- The kind of a heap object. -/
inductive Tag where
  /-- A 64-bit signed integer. -/
  | int
  /-- A 64-bit floating-point number. -/
  | double
  /-- A string of bytes. -/
  | str
  /-- A growable vector of integers. -/
  | vectorInt
  /-- A jump target. -/
  | label
  /-- Two references. -/
  | pair
  /-- A discriminant of the program's own and one reference. -/
  | tagged
  /-- A captured environment and an entry point. -/
  | closure
  deriving DecidableEq, Repr

/-- A raw tag word outside the closed set. -/
structure UnknownTag where
  /-- The word that was to be decoded. -/
  raw : UInt64
  deriving DecidableEq, Repr

namespace UnknownTag

/-- The wording of a failed decoding. -/
def message (e : UnknownTag) : String := "unknown object tag " ++ Text.hex e.raw.toNat

end UnknownTag

namespace Tag

/-- The first raw tag word. -/
def reserved : UInt64 := 0xffff

/-- The kinds in the order of their raw words. -/
def all : List Tag := [int, double, str, vectorInt, label, pair, tagged, closure]

/-- The raw word of a kind. -/
def raw : Tag → UInt64
  | int => reserved
  | double => reserved + 1
  | str => reserved + 2
  | vectorInt => reserved + 3
  | label => reserved + 4
  | pair => reserved + 5
  | tagged => reserved + 6
  | closure => reserved + 7

/-- The kind with a given raw word. -/
def ofRaw (word : UInt64) : Except UnknownTag Tag :=
  match all.find? fun t => t.raw = word with
  | some t => .ok t
  | none => .error ⟨word⟩

/-- Whether objects of a kind may refer to other objects; the others are leaves. -/
def hasReferences : Tag → Bool
  | pair | tagged | closure => true
  | int | double | str | vectorInt | label => false

/-- The name of a kind. -/
def name : Tag → String
  | int => "int"
  | double => "double"
  | str => "str"
  | vectorInt => "vector_int"
  | label => "label"
  | pair => "pair"
  | tagged => "tagged"
  | closure => "closure"

/-- The name of a kind, qualified. -/
def qualifiedName (t : Tag) : String := "Tag::" ++ t.name

/-! ### Decoding is the inverse of encoding -/

theorem mem_all (t : Tag) : t ∈ all := by cases t <;> decide

/-- The raw word of a kind decodes to the kind. -/
@[simp]
theorem ofRaw_raw (t : Tag) : ofRaw t.raw = .ok t := by cases t <;> rfl

/-- Only the raw word of a kind decodes to it. -/
theorem raw_of_ofRaw {word : UInt64} {t : Tag} (h : ofRaw word = .ok t) : t.raw = word := by
  unfold ofRaw at h
  split at h
  · rename_i u hu
    cases h
    simpa using List.find?_some hu
  · cases h

/-- A raw word fits above the eight bits of a colour. -/
theorem raw_lt (t : Tag) : t.raw.toNat < 0x100000000000000 := by cases t <;> decide

end Tag

end MarkSweep
