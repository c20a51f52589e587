import MarkSweep.Heap.Allocate
import MarkSweep.Heap.Mark
import MarkSweep.Heap.Sweep

/-!
# Full collections

A full collection marks from a root set, sweeps, and adjusts the thresholds. Under the adaptive
policy a threshold doubles when twice what is in use after the sweep exceeds it; doubling and
comparison saturate. A fault in marking ends the collection before anything is released, and it
does not count as one.
-/

namespace MarkSweep.Heap

variable {φ : Type}

/-- Whether a collection that leaves so much in use raises a threshold. -/
def raisesThreshold (policy : Policy) (threshold inUse : UInt64) : Bool :=
  policy = .adaptive && threshold < Word.doubleSat inUse

/-- A threshold after a collection that leaves so much in use. -/
def adjustedThreshold (policy : Policy) (threshold inUse : UInt64) : UInt64 :=
  if raisesThreshold policy threshold inUse then Word.doubleSat threshold else threshold

/-- The heap with both thresholds adjusted to what is in use. -/
def adjustThresholds (heap : Heap φ) : Heap φ :=
  { heap with
    objectsThreshold :=
      adjustedThreshold heap.config.policy heap.objectsThreshold heap.objectsAllocated
    bytesThreshold :=
      adjustedThreshold heap.config.policy heap.bytesThreshold heap.bytesAllocated }

/-- The announcements of `Heap.adjustThresholds`. -/
def thresholdEvents (heap : Heap φ) : List (Event φ) :=
  let after := heap.adjustThresholds
  (if raisesThreshold heap.config.policy heap.objectsThreshold heap.objectsAllocated then
    [.objectsThresholdRaised after.objectsThreshold] else []) ++
  (if raisesThreshold heap.config.policy heap.bytesThreshold heap.bytesAllocated then
    [.bytesThresholdRaised after.bytesThreshold] else [])

/-- The heap with one more completed collection on its count. -/
def countCollection (heap : Heap φ) : Heap φ :=
  { heap with stats := { heap.stats with collections := heap.stats.collections + 1 } }

/-- Marks from the roots, sweeps, and adjusts the thresholds. -/
def collect (heap : Heap φ) (roots : Roots) : Outcome φ Fault (Heap φ) CycleStats :=
  let started : Event φ :=
    .collectionStarted heap.objectsAllocated heap.bytesAllocated roots.size
  let marked := heap.mark roots
  match marked.answer with
  | .error fault => ⟨.error fault, marked.state, [started]⟩
  | .ok reached =>
    let swept := marked.state.sweep
    let adjusted := swept.state.adjustThresholds
    let stats : CycleStats := ⟨swept.stats, reached⟩
    ⟨.ok stats, adjusted.countCollection,
      started :: swept.events ++ swept.state.thresholdEvents ++
        [.collectionFinished stats adjusted.objectsThreshold adjusted.bytesThreshold]⟩

end MarkSweep.Heap
