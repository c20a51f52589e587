import MarkSweep.Heap.Basic

/-!
# Sweeping

A sweep walks the list from the newest object to the oldest. A Black object stays and turns White
again; any other is unlinked and released. Unlinking writes to the survivor met last, or to the
head of the list while there is none yet. Releasing puts the slot onto the free list, raises its
generation, takes the charge back, and runs the finalizer of the object, if it has one, with the
handle and the payload that the object had.

To release all objects, all are turned White and the list is swept. Giving up a heap is the same,
but only if a finalizer is left to run.
-/

namespace MarkSweep

variable {φ σ : Type}

/-- What a sweep leaves: the state, what it released, and the finalizers it ran in order. -/
structure Swept (φ σ : Type) where
  /-- The state after the sweep. -/
  state : σ
  /-- What was released. -/
  stats : SweepStats
  /-- The finalizers that ran. -/
  finalized : List (Finalization φ)

/-- A sweep as events. -/
def Swept.events (s : Swept φ σ) : List (Event φ) := s.finalized.map Event.finalized

namespace Heap

/-- Takes the handle after `prev` out of the list: what follows `prev` is from now on `next`. -/
def unlink (heap : Heap φ) (prev next : Option Handle) : Heap φ :=
  match prev with
  | none => { heap with head := next }
  | some p => heap.updateSlot p fun slot => { slot with next := next }

/-- The run of the finalizer of a handle, if it has one and there is a payload to give to it. -/
def finalization? (heap : Heap φ) (h : Handle) (object : Option Object) :
    Option (Finalization φ) :=
  match heap.finalizers[h]?, object with
  | some finalizer, some object => some ⟨finalizer, h, object⟩
  | _, _ => none

/-- Gives back the slot of a handle that is no longer in the list. -/
def vacate (heap : Heap φ) (h : Handle) (size : UInt64) : Heap φ :=
  { heap with
    slots := heap.slots.modify h.slot Slot.vacate
    free := h.index :: heap.free
    bytesAllocated := heap.bytesAllocated - size
    objectsAllocated := heap.objectsAllocated - 1
    finalizers := heap.finalizers.erase h }

end Heap

/-- A sweep in progress. -/
structure Sweeping (φ : Type) where
  /-- The heap so far. -/
  heap : Heap φ
  /-- The survivor met last. -/
  prev : Option Handle
  /-- What was released so far. -/
  stats : SweepStats
  /-- The finalizers that ran so far, in order. -/
  finalized : Array (Finalization φ)

namespace Sweeping

/-- Keeps an object: it turns White, and its successors are linked to it. -/
def keep (s : Sweeping φ) (h : Handle) : Sweeping φ :=
  { s with heap := s.heap.recolor h .white, prev := some h }

/-- Releases the object in a slot. -/
def release (s : Sweeping φ) (h : Handle) (slot : Slot) : Sweeping φ :=
  let run := s.heap.finalization? h slot.object
  { s with
    heap := (s.heap.unlink s.prev slot.next).vacate h slot.size
    stats := s.stats + ⟨1, slot.size, if run.isSome then 1 else 0⟩
    finalized := s.finalized ++ run.toArray }

/-- Decides on the next object of the list. -/
def step (s : Sweeping φ) (h : Handle) : Sweeping φ :=
  match s.heap.slots[h.slot]? with
  | none => s
  | some slot => if slot.header.hasColor .black then s.keep h else s.release h slot

end Sweeping

namespace Heap

/-- Releases every object that is not Black, and turns the others White. -/
def sweep (heap : Heap φ) : Swept φ (Heap φ) :=
  let s := heap.handles.foldl Sweeping.step ⟨heap, none, SweepStats.zero, #[]⟩
  let totals : HeapStats :=
    { s.heap.stats with
      totalObjectsFreed := s.heap.stats.totalObjectsFreed + s.stats.objectsFreed
      totalBytesFreed := s.heap.stats.totalBytesFreed + s.stats.bytesFreed }
  ⟨{ s.heap with stats := totals }, s.stats, s.finalized.toList⟩

/-- The heap with every object White. -/
def whiten (heap : Heap φ) : Heap φ :=
  heap.handles.foldl (fun heap h => heap.recolor h .white) heap

/-- Releases every object. -/
def releaseAll (heap : Heap φ) : Swept φ (Heap φ) := heap.whiten.sweep

/-- The finalizers that run when a heap is given up. -/
def discard (heap : Heap φ) : List (Finalization φ) :=
  if heap.finalizers.isEmpty then [] else heap.releaseAll.finalized

end Heap

end MarkSweep
