import MarkSweep.Machine.Basic

/-!
# Taking a machine down

To release a machine is to forget its roots, to stop it, and to release every object, so that
every finalizer that is left runs. A machine that is given up without having been released is
released first, unless its heap is empty; after that its heap is given up.
-/

namespace MarkSweep.Machine

variable {φ : Type}

/-- Forgets the roots, stops, and releases every object. -/
def release (m : Machine φ) : Swept φ (Machine φ) :=
  let swept := m.heap.releaseAll
  ⟨⟨swept.state, m.stack.clear, none, false, m.ip⟩, swept.stats, swept.finalized⟩

/-- The finalizers that run when a machine is given up. -/
def discard (m : Machine φ) : List (Finalization φ) :=
  if m.heap.isEmpty then m.heap.discard
  else m.release.finalized ++ m.release.state.heap.discard

/-- What the release of a machine, after which it is given up, answers and does. -/
def free (m : Machine φ) : SweepStats × List (Event φ) :=
  let released := m.release
  (released.stats,
    .teardownStarted m.heap.objectsAllocated :: released.events ++
      released.state.discard.map Event.finalized)

end MarkSweep.Machine
