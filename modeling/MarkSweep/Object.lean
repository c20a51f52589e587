import MarkSweep.Double
import MarkSweep.Handle
import MarkSweep.Tag

/-!
# Heap objects

The payload of a heap object: one variant for each kind. Four of the variants' fields hold
references, and `Object.store` writes to one of them, provided that the object has it. A write
never changes the kind (`Object.tag_of_store`), and only objects of a kind that has references
hold any (`Object.references_eq_nil`).
-/

namespace MarkSweep

/-- Byte strings are compared byte by byte, whatever other comparison of them is in scope. -/
local instance decidableEqBytes : DecidableEq ByteArray := ByteArray.decEq

/-- The payload of a heap object. -/
inductive Object where
  /-- A signed integer. -/
  | int (value : Int64)
  /-- A floating-point number. -/
  | double (value : Double)
  /-- A string of bytes, which need not be text. -/
  | str (bytes : ByteArray)
  /-- A growable vector of integers. -/
  | vectorInt (items : Array Int64)
  /-- A jump target. -/
  | label (target : Label)
  /-- Two references. -/
  | pair (lhs rhs : Option Handle)
  /-- A discriminant and the value that it qualifies. -/
  | tagged (discriminant : UInt64) (value : Option Handle)
  /-- A captured environment and the entry point of the code that uses it. -/
  | closure (env : Option Handle) (entry : Label)
  deriving DecidableEq

/-- The fields of objects that hold a reference. -/
inductive RefField where
  /-- The left half of a pair. -/
  | lhs
  /-- The right half of a pair. -/
  | rhs
  /-- The value of a tagged value. -/
  | taggedValue
  /-- The environment of a closure. -/
  | closureEnv
  deriving DecidableEq, Repr

/-- The text of a reference that may be absent. -/
def refText (ref : Option Handle) : String := Text.optional (ref.map Handle.text)

namespace Object

/-- The kind of an object. -/
def tag : Object → Tag
  | int _ => .int
  | double _ => .double
  | str _ => .str
  | vectorInt _ => .vectorInt
  | label _ => .label
  | pair _ _ => .pair
  | tagged _ _ => .tagged
  | closure _ _ => .closure

/-! ### Size -/

/-- The bytes charged for the fixed part of every object: its header, its link and its size. -/
def headerSize : UInt64 := 24

/-- The bytes of a machine word. -/
def wordSize : UInt64 := 8

/-- The bytes charged for the fixed part of a vector. -/
def vectorSize : UInt64 := 24

/-- The bytes charged for a payload. A string is charged for its length and its bytes; a vector
is charged for its fixed part only, however long it is or becomes. -/
def payloadSize : Object → UInt64
  | int _ | double _ | label _ => wordSize
  | str bytes => wordSize + UInt64.ofNat bytes.size
  | vectorInt _ => vectorSize
  | pair _ _ | tagged _ _ | closure _ _ => 2 * wordSize

/-- The bytes charged for an object. -/
def size (o : Object) : UInt64 := headerSize + o.payloadSize

/-! ### References -/

/-- The references that an object holds, in the order of its fields. -/
def references : Object → List Handle
  | pair lhs rhs => lhs.toList ++ rhs.toList
  | tagged _ value => value.toList
  | closure env _ => env.toList
  | int _ | double _ | str _ | vectorInt _ | label _ => []

/-- The object with a reference written to one of its fields, if it has that field. -/
def store : Object → RefField → Option Handle → Option Object
  | pair _ rhs, .lhs, ref => some (pair ref rhs)
  | pair lhs _, .rhs, ref => some (pair lhs ref)
  | tagged discriminant _, .taggedValue, ref => some (tagged discriminant ref)
  | closure _ entry, .closureEnv, ref => some (closure ref entry)
  | _, _, _ => none

/-- The object with integers appended, if it is a vector. -/
def append (items : Array Int64) : Object → Option Object
  | vectorInt old => some (vectorInt (old ++ items))
  | _ => none

/-! ### Variants -/

/-- The value of an integer. -/
def int? : Object → Option Int64
  | int value => some value
  | _ => none

/-- The value of a floating-point number. -/
def double? : Object → Option Double
  | double value => some value
  | _ => none

/-- The bytes of a string. -/
def bytes? : Object → Option ByteArray
  | str bytes => some bytes
  | _ => none

/-- The text of a string whose bytes encode one. -/
def utf8? (o : Object) : Option String := o.bytes?.bind String.fromUTF8?

/-- The integers of a vector. -/
def items? : Object → Option (Array Int64)
  | vectorInt items => some items
  | _ => none

/-- The target of a label. -/
def label? : Object → Option Label
  | label target => some target
  | _ => none

/-- The two halves of a pair. -/
def pair? : Object → Option (Option Handle × Option Handle)
  | pair lhs rhs => some (lhs, rhs)
  | _ => none

/-- The discriminant and the value of a tagged value. -/
def tagged? : Object → Option (UInt64 × Option Handle)
  | tagged discriminant value => some (discriminant, value)
  | _ => none

/-- The environment and the entry point of a closure. -/
def closure? : Object → Option (Option Handle × Label)
  | closure env entry => some (env, entry)
  | _ => none

/-- Whether two objects hold the same data; floating-point numbers are compared as numbers. -/
def equals : Object → Object → Bool
  | double x, double y => x.equals y
  | a, b => a = b

/-! ### Text -/

/-- The text of an object: its variant with its data. One unnamed part stands in parentheses, and
named fields are shown as a record. -/
def text : Object → String
  | int value => Text.applied "Int" (toString value.toInt)
  | double value => Text.applied "Double" value.text
  | str bytes =>
    Text.applied "Str" (Text.sequence (bytes.toList.map fun b => toString b.toNat))
  | vectorInt items =>
    Text.applied "VectorInt" (Text.sequence (items.toList.map fun n => toString n.toInt))
  | label target => Text.applied "Label" (toString target.toNat)
  | pair lhs rhs => Text.record "Pair" [("lhs", refText lhs), ("rhs", refText rhs)]
  | tagged discriminant value =>
    Text.record "Tagged" [("tag", toString discriminant.toNat), ("value", refText value)]
  | closure env entry =>
    Text.record "Closure" [("env", refText env), ("label", toString entry.toNat)]

/-! ### Writes and references -/

/-- A write to a field keeps the kind. -/
theorem tag_of_store {o p : Object} {f : RefField} {ref : Option Handle}
    (h : o.store f ref = some p) : p.tag = o.tag := by
  cases o <;> cases f <;> simp only [store, Option.some.injEq, reduceCtorEq] at h <;>
    subst h <;> rfl

/-- Appending integers keeps the kind. -/
theorem tag_of_append {o p : Object} {items : Array Int64} (h : o.append items = some p) :
    p.tag = o.tag := by
  cases o <;> simp only [append, Option.some.injEq, reduceCtorEq] at h
  subst h; rfl

/-- A leaf holds no references. -/
theorem references_eq_nil {o : Object} (h : o.tag.hasReferences = false) : o.references = [] := by
  cases o <;> simp_all [tag, Tag.hasReferences, references]

/-- A write to a field brings in no reference but the one written. -/
theorem mem_references_of_store {o p : Object} {f : RefField} {ref : Option Handle}
    (h : o.store f ref = some p) {r : Handle} (hr : r ∈ p.references) :
    r ∈ o.references ∨ ref = some r := by
  cases o <;> cases f <;> simp only [store, Option.some.injEq, reduceCtorEq] at h <;> subst h <;>
    simp only [references, List.mem_append, Option.mem_toList] at hr ⊢ <;> grind

end Object

end MarkSweep
