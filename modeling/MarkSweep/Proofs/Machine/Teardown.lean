import MarkSweep.Proofs.Heap.Emptying
import MarkSweep.Proofs.Machine.Finalization

/-!
# Taking a machine down leaves nothing to do

Three layers have a part in taking a machine down. The release of the machine empties its heap
(`Heap.Intact.releasesAll`), which the machine asserts; the machine that is then given up releases
its heap again unless it is empty; and the heap that is given up after it releases its objects
unless no finalizer is left. A heap without objects has neither, so that the last two come to
nothing.
-/

namespace MarkSweep.Machine

variable {φ : Type} {m : Machine φ}

/-! ### Giving up what is empty -/

theorem closing_eq_nil (hv : m.heap.Vacant) : m.closing = [] := by
  rw [closing, if_pos hv.isEmpty, Heap.closing, if_pos hv.isEmpty_finalizers]

theorem discard_eq_nil (hv : m.heap.Vacant) : m.discard = [] := by
  rw [discard_eq, closing_eq_nil hv]
  rfl

/-! ### Three layers -/

/-- **A machine is taken down** by its release, and nothing is left to do after it. -/
structure TearsDown (m : Machine φ) : Prop where
  /-- Its heap is emptied, from whatever colours. -/
  releasesAll : m.heap.ReleasesAll
  /-- The heap is empty after the release, as the machine asserts. -/
  isEmpty : m.release.state.heap.isEmpty
  /-- No root is left. -/
  isEmpty_roots : m.release.state.roots.isEmpty
  /-- The machine has stopped. -/
  stopped : m.release.state.isRunning = false
  /-- To free it answers and does what the release of all objects answers and does. -/
  free_eq : m.free = (m.heap.releaseAll.stats,
    .teardownStarted m.heap.objectsAllocated :: m.heap.releaseAll.events)
  /-- To give up the machine and its heap after that makes no call, -/
  closing_eq : m.release.state.closing = []
  /-- and runs no finalizer. -/
  discard_eq : m.release.state.discard = []

theorem tearsDown (hi : m.heap.Intact) : m.TearsDown := by
  have hreleases := hi.releasesAll
  have hv : m.release.state.heap.Vacant := hreleases.vacant
  have hdiscard := discard_eq_nil hv
  constructor
  case releasesAll => exact hreleases
  case isEmpty => exact hv.isEmpty
  case isEmpty_roots => rfl
  case stopped => rfl
  case free_eq =>
    rw [free, hdiscard, List.map_nil, List.append_nil]
    rfl
  case closing_eq => exact closing_eq_nil hv
  case discard_eq => exact hdiscard

/-- **Taking down empties everything**, whatever calls were made of a new heap or of a new machine,
and whatever colours they have left. -/
theorem teardown_run (config : Config) :
    (∀ ops : List (Heap.Op φ),
      let start : Heap φ := Heap.ofConfig config
      let heap := start.run ops
      heap.ReleasesAll ∧ (∀ colors, (heap.paint colors).ReleasesAll) ∧
        heap.stats.totalObjectsFreed.toNat + heap.handles.length ≤ (start.issued ops).length ∧
        heap.stats.totalBytesFreed.toNat + heap.totalCharge ≤ Heap.bytesOf (start.charged ops)) ∧
    ∀ calls : List (Call φ),
      let start : Machine φ := ofConfig config
      let m := start.runCalls calls
      m.heap = start.heap.run (start.heapOps calls) ∧ m.TearsDown := by
  have hi : (Heap.ofConfig config : Heap φ).Intact := .ofConfig config
  constructor
  · intro ops start heap
    have hheap : heap.Intact := hi.run ops
    exact ⟨hheap.releasesAll, fun colors => (hheap.paint colors).releasesAll,
      Heap.totals_add_live_le config ops⟩
  · intro calls start m
    have hheap := (start.comesDown_run calls).1
    refine ⟨hheap, tearsDown ?_⟩
    rw [hheap]
    exact hi.run (start.heapOps calls)

end MarkSweep.Machine
