import MarkSweep.Proofs.Heap.Finalization
import MarkSweep.Proofs.Machine.Accounting

/-!
# Finalizers of a machine

What is true of the finalizers of a heap is carried over to those of a machine, whose calls come
down to calls of its heap. However a machine is taken down, the calls that this comes to leave no
finalizer, so that every finalizer of the history runs exactly once.
-/

namespace MarkSweep.Machine

variable {φ : Type} {m : Machine φ}

/-! ### Taking a machine down -/

theorem finalized_releaseAll (heap : Heap φ) :
    (Heap.Op.releaseAll : Heap.Op φ).finalized heap = heap.releaseAll.finalized :=
  Event.finalizations_map_finalized _

/-- The finalizers that run when a machine is given up are those of the calls that it comes to. -/
theorem discard_eq (m : Machine φ) : m.discard = m.heap.finalized m.closing := by
  rw [discard, closing]
  split
  · exact m.heap.discard_eq
  · rw [Heap.finalized_cons, finalized_releaseAll, Heap.discard_eq]
    rfl

/-- And so are those that run when it is freed. -/
theorem finalizations_free (m : Machine φ) :
    Event.finalizations m.free.2 = m.heap.finalized m.freeing := by
  have hreleased : Event.finalizations
      (.teardownStarted m.heap.objectsAllocated :: m.release.events) = m.release.finalized :=
    Event.finalizations_map_finalized _
  have hevents : Event.finalizations m.free.2 = m.release.finalized ++ m.release.state.discard := by
    rw [free, Event.finalizations_append, hreleased, Event.finalizations_map_finalized]
  rw [hevents, discard_eq, freeing, Heap.finalized_cons, finalized_releaseAll]
  rfl

theorem isEmpty_closing (hi : m.heap.Intact) :
    (m.heap.run m.closing).finalizers.isEmpty := by
  rw [closing]
  split
  · exact hi.isEmpty_closing
  · exact hi.releaseAll.isEmpty_closing

theorem isEmpty_freeing (hi : m.heap.Intact) :
    (m.heap.run m.freeing).finalizers.isEmpty :=
  isEmpty_closing (m := m.release.state) hi.releaseAll

/-- **Every finalizer runs exactly once**, whatever calls were made of a new heap or of a new
machine, and however it is taken down in the end: a heap is given up, or a machine is given up, or
it is freed. -/
theorem finalizers_run_once (config : Config) :
    (∀ ops : List (Heap.Op φ),
      let heap := (Heap.ofConfig config).run ops
      heap.discard = heap.finalized heap.closing ∧
        (Heap.ofConfig config).FinalizesOnce (ops ++ heap.closing)) ∧
    ∀ calls : List (Call φ),
      let start : Machine φ := ofConfig config
      let m := start.runCalls calls
      m.heap = start.heap.run (start.heapOps calls) ∧
      start.finalized calls = start.heap.finalized (start.heapOps calls) ∧
      start.registered calls = start.heap.registered (start.heapOps calls) ∧
      (m.discard = m.heap.finalized m.closing ∧
        start.heap.FinalizesOnce (start.heapOps calls ++ m.closing)) ∧
      (Event.finalizations m.free.2 = m.heap.finalized m.freeing ∧
        m.heap.sweeps m.freeing = m.free.1 :: m.release.state.heap.sweeps m.release.state.closing ∧
        start.heap.FinalizesOnce (start.heapOps calls ++ m.freeing)) := by
  have hi : (Heap.ofConfig config : Heap φ).Intact := .ofConfig config
  have hempty : (Heap.ofConfig config : Heap φ).finalizers.isEmpty := rfl
  refine ⟨fun ops => ?_, fun calls => ?_⟩
  · intro heap
    refine ⟨heap.discard_eq, hi.finalizesOnce hempty ?_⟩
    rw [Heap.run_append]
    exact (hi.run ops).isEmpty_closing
  · intro start m
    obtain ⟨hheap, hruns, hregistered⟩ := start.comesDown_run calls
    have hstart : start.heap.Intact := hi
    have hm : m.heap.Intact := hheap ▸ hstart.run (start.heapOps calls)
    -- either way of taking the machine down continues the history of its heap
    have hcloses : (start.heap.run (start.heapOps calls ++ m.closing)).finalizers.isEmpty := by
      rw [Heap.run_append, ← hheap]
      exact isEmpty_closing hm
    have hfrees : (start.heap.run (start.heapOps calls ++ m.freeing)).finalizers.isEmpty := by
      rw [Heap.run_append, ← hheap]
      exact isEmpty_freeing hm
    exact ⟨hheap, hruns, hregistered, ⟨m.discard_eq, hstart.finalizesOnce hempty hcloses⟩,
      m.finalizations_free, rfl, hstart.finalizesOnce hempty hfrees⟩

end MarkSweep.Machine
