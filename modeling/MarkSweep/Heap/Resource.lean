import MarkSweep.Heap.Ledger

/-!
# Thresholds in unbounded arithmetic

A heap keeps a threshold for each of two resources, the number of its objects and that of their
bytes. The rule for a threshold can be told without words and their bounds. It is the configured one
to begin with, at least one, and under the adaptive policy it doubles at the end of every full
collection that leaves more than half of it in use. `Config.idealThreshold` is that rule, for the
amounts that the full collections of a history leave (`Heap.left`). It takes nothing else from the
history, and nothing at all from the other resource.
-/

namespace MarkSweep

variable {φ : Type}

/-- What a heap keeps a threshold for. -/
inductive Resource where
  /-- The number of live objects. -/
  | objects
  /-- The bytes charged for them. -/
  | bytes
  deriving DecidableEq, Repr

/-- A threshold after a full collection that leaves so much in use, as a number without a bound. -/
def Policy.raise : Policy → (threshold inUse : Nat) → Nat
  | static, threshold, _ => threshold
  | adaptive, threshold, inUse => if threshold < 2 * inUse then 2 * threshold else threshold

namespace Config

/-- The configured threshold for a resource. -/
def threshold (c : Config) : Resource → UInt64
  | .objects => c.objectsThreshold
  | .bytes => c.bytesThreshold

/-- The threshold for a resource after full collections that leave so much of it in use, one after
the other, as a number without a bound. -/
def idealThreshold (c : Config) (r : Resource) (left : List Nat) : Nat :=
  left.foldl c.policy.raise (max 1 (c.threshold r).toNat)

end Config

namespace Heap

/-- The threshold for a resource. -/
def threshold (heap : Heap φ) : Resource → UInt64
  | .objects => heap.objectsThreshold
  | .bytes => heap.bytesThreshold

/-- How much of a resource is in use. -/
def inUse (heap : Heap φ) : Resource → UInt64
  | .objects => heap.objectsAllocated
  | .bytes => heap.bytesAllocated

/-- How much of a resource a call leaves in use, if it is a full collection that is completed. -/
def Op.left? (r : Resource) (heap : Heap φ) (op : Op φ) : Option Nat :=
  (op.cycle? heap).map fun _ => ((op.perform heap).state.inUse r).toNat

/-- How much of a resource the completed full collections of a history leave in use, one after the
other. -/
def left (r : Resource) (heap : Heap φ) (ops : List (Op φ)) : List Nat :=
  heap.ledger (fun heap op => (op.left? r heap).toList) ops

@[simp]
theorem left_cons (r : Resource) (heap : Heap φ) (op : Op φ) (ops : List (Op φ)) :
    heap.left r (op :: ops) = (op.left? r heap).toList ++ (op.perform heap).state.left r ops := rfl

end Heap

end MarkSweep
