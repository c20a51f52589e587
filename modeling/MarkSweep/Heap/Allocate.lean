import MarkSweep.Heap.Access
import MarkSweep.Word

/-!
# Allocation

An allocation never collects; whether a collection should come first is for the caller to decide,
with `Heap.shouldCollect` and `Heap.wouldExceed`. It goes through three checks, in this order: the
references of the object are live, the limit is kept, and there is a slot. The slot released last
is used again before the arena grows, so that memory is needed only when every slot is occupied;
whether it is granted is an argument. An allocation that fails leaves the heap as it was.
-/

namespace MarkSweep.Heap

variable {φ : Type}

/-- Whether a collection should come before the next allocation. -/
def shouldCollect (heap : Heap φ) : Bool :=
  heap.objectsThreshold ≤ heap.objectsAllocated || heap.bytesThreshold ≤ heap.bytesAllocated

/-- Whether a charge of `size` more bytes would break the limit. -/
def wouldExceed (heap : Heap φ) (size : UInt64) : Bool :=
  heap.config.maxBytes ≠ 0 && heap.config.maxBytes < Word.addSat heap.bytesAllocated size

/-- The limit is tested against the sum, cut off at the largest word. -/
theorem wouldExceed_iff {heap : Heap φ} {size : UInt64} :
    heap.wouldExceed size ↔ heap.config.maxBytes ≠ 0 ∧
      heap.config.maxBytes.toNat <
        min (heap.bytesAllocated.toNat + size.toNat) Word.largest.toNat := by
  rw [wouldExceed, Bool.and_eq_true, decide_eq_true_eq, decide_eq_true_eq, UInt64.lt_iff_toNat_lt,
    Word.toNat_addSat]

/-- The refusal of an allocation of `size` bytes. -/
def outOfMemory (heap : Heap φ) (size : UInt64) : OutOfMemory :=
  ⟨size, heap.bytesAllocated, heap.config.maxBytes⟩

/-- The largest number of slots, so that every position fits in a handle. -/
def maxSlots : Nat := UInt32.size

/-- Whether there is a slot for one more object: a free one, or memory for a new one. -/
def hasSlot (heap : Heap φ) (granted : Bool) : Bool :=
  !heap.free.isEmpty || (heap.slots.size < maxSlots && granted)

/-- Puts an object in front of the list, in the slot released last or else in a new one. -/
def occupy (heap : Heap φ) (object : Object) (size : UInt64) : Handle × Heap φ :=
  let header := Header.make object.tag .white
  match heap.free with
  | index :: rest =>
    let generation := (heap.slots[index.toNat]?.map Slot.generation).getD 0
    let slot : Slot := ⟨header, heap.head, size, generation, some object⟩
    (⟨index, generation⟩,
      { heap with slots := heap.slots.modify index.toNat fun _ => slot, free := rest })
  | [] =>
    let slot : Slot := ⟨header, heap.head, size, 0, some object⟩
    (⟨UInt32.ofNat heap.slots.size, 0⟩, { heap with slots := heap.slots.push slot })

/-- The heap with the object of a handle at the head of the list, charged and registered. -/
def enter (heap : Heap φ) (h : Handle) (size : UInt64) (finalizer : Option φ) : Heap φ :=
  let bytes := heap.bytesAllocated + size
  { heap with
    head := some h
    bytesAllocated := bytes
    objectsAllocated := heap.objectsAllocated + 1
    finalizers := finalizer.elim heap.finalizers (heap.finalizers.insert h)
    stats := { heap.stats with peakBytes := max heap.stats.peakBytes bytes } }

/-- Allocates an object and charges `size` bytes for it. -/
def allocate (heap : Heap φ) (object : Object) (size : UInt64) (finalizer : Option φ)
    (granted : Bool) : Outcome φ AllocationError (Heap φ) Handle :=
  match heap.stale? object.references with
  | some r => .quiet (.error (.fault (.staleHandle r))) heap
  | none =>
    if heap.wouldExceed size || !heap.hasSlot granted then
      .quiet (.error (.outOfMemory (heap.outOfMemory size))) heap
    else
      let (h, occupied) := heap.occupy object size
      ⟨.ok h, occupied.enter h size finalizer, [.allocated h object.tag size]⟩

end MarkSweep.Heap
