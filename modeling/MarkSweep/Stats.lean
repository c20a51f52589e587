import MarkSweep.Text.Layout

/-!
# Statistics

What a sweep released, what a full collection did, and the totals over the life of a heap.
-/

namespace MarkSweep

/-- What a sweep released. -/
structure SweepStats where
  /-- The objects released. -/
  objectsFreed : UInt64
  /-- The bytes that had been charged for them. -/
  bytesFreed : UInt64
  /-- The finalizers that ran. -/
  finalizersRun : UInt64
  deriving DecidableEq, Repr

namespace SweepStats

/-- Nothing was released. -/
def zero : SweepStats := ⟨0, 0, 0⟩

instance : Add SweepStats where
  add s t :=
    ⟨s.objectsFreed + t.objectsFreed, s.bytesFreed + t.bytesFreed,
      s.finalizersRun + t.finalizersRun⟩

/-- The text of what a sweep released. -/
def text (s : SweepStats) : String :=
  Text.record "SweepStats"
    [("objects_freed", toString s.objectsFreed.toNat), ("bytes_freed", toString s.bytesFreed.toNat),
      ("finalizers_run", toString s.finalizersRun.toNat)]

end SweepStats

/-- What a full collection did. -/
structure CycleStats where
  /-- What its sweep released. -/
  sweep : SweepStats
  /-- The objects that its marking reached. -/
  objectsMarked : UInt64
  deriving DecidableEq, Repr

/-- Totals over the life of a heap. -/
structure HeapStats where
  /-- The full collections that were completed. -/
  collections : UInt64
  /-- The objects released by all sweeps. -/
  totalObjectsFreed : UInt64
  /-- The bytes released by all sweeps. -/
  totalBytesFreed : UInt64
  /-- The most bytes that were ever allocated at one time. -/
  peakBytes : UInt64
  deriving DecidableEq, Repr

/-- The totals of a new heap. -/
def HeapStats.zero : HeapStats := ⟨0, 0, 0, 0⟩

end MarkSweep
