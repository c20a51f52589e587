import MarkSweep.Header

/-!
# Histories of a header

A history is a sequence of calls of the setters of a header, in any order and with any arguments,
raw ones included. Each call is on one of the two fields (`Op.field`), and what a field holds in the
end is a matter of the last call on it, if there is one (`lastOn?`).
-/

namespace MarkSweep.Header

/-- The fields of a header. -/
inductive Field where
  /-- The tag bits. -/
  | tag
  /-- The colour byte. -/
  | color
  deriving DecidableEq, Repr

namespace Field

/-- What a header holds in a field. -/
def read (h : Header) : Field → Nat
  | tag => h.rawTag.toNat
  | color => h.rawColor.toNat

/-- The number of values that a field can hold. -/
def size : Field → Nat
  | tag => 0x100000000000000
  | color => 256

end Field

/-- A call of a setter of a header. -/
inductive Op where
  /-- Set the kind. -/
  | setTag (tag : Tag)
  /-- Overwrite the tag bits. -/
  | setRawTag (word : UInt64)
  /-- Set the colour. -/
  | setColor (color : Color)
  /-- Overwrite the colour byte. -/
  | setRawColor (byte : UInt8)
  deriving DecidableEq, Repr

namespace Op

/-- The header after a call. -/
def perform (h : Header) : Op → Header
  | setTag tag => h.setTag tag
  | setRawTag word => h.setRawTag word
  | setColor color => h.setColor color
  | setRawColor byte => h.setRawColor byte

/-- The field that a call is on. -/
def field : Op → Field
  | setTag _ | setRawTag _ => .tag
  | setColor _ | setRawColor _ => .color

/-- The argument of a call, which need not fit into the field. -/
def argument : Op → Nat
  | setTag tag => tag.raw.toNat
  | setRawTag word => word.toNat
  | setColor color => color.raw.toNat
  | setRawColor byte => byte.toNat

end Op

/-- The header after calls performed one after the other. -/
def run (h : Header) : List Op → Header
  | [] => h
  | op :: ops => run (op.perform h) ops

/-- The last of the calls on a field. -/
def lastOn? (field : Field) (ops : List Op) : Option Op :=
  (ops.filter fun op => op.field = field).getLast?

theorem run_append (h : Header) (ops more : List Op) :
    h.run (ops ++ more) = (h.run ops).run more := by
  induction ops generalizing h with
  | nil => rfl
  | cons op ops ih => exact ih _

/-! ### The last call on a field -/

variable {field : Field} {ops : List Op} {op : Op}

/-- Later calls come before earlier ones. -/
theorem lastOn?_append (field : Field) (ops more : List Op) :
    lastOn? field (ops ++ more) = (lastOn? field more).or (lastOn? field ops) := by
  rw [lastOn?, List.filter_append, List.getLast?_append, lastOn?, lastOn?]

theorem lastOn?_singleton (field : Field) (op : Op) :
    lastOn? field [op] = if op.field = field then some op else none := by
  by_cases hfield : op.field = field <;> simp [lastOn?, hfield]

theorem lastOn?_cons (field : Field) (op : Op) (ops : List Op) :
    lastOn? field (op :: ops) =
      (lastOn? field ops).or (if op.field = field then some op else none) := by
  rw [← List.singleton_append, lastOn?_append, lastOn?_singleton]

theorem field_eq_of_lastOn? (h : lastOn? field ops = some op) : op.field = field := by
  simpa using (List.mem_filter.1 (List.mem_of_getLast? h)).2

/-- Calls on another field do not count. -/
theorem lastOn?_filter_ne {other : Field} (hne : field ≠ other) (ops : List Op) :
    lastOn? field (ops.filter fun op => op.field ≠ other) = lastOn? field ops := by
  rw [lastOn?, List.filter_filter, lastOn?]
  refine congrArg List.getLast? (List.filter_congr fun op _ => ?_)
  by_cases hfield : op.field = field <;> simp [hfield, hne]

end MarkSweep.Header
