import MarkSweep.Machine.Basic

/-!
# Allocation with automatic collection

A machine collects before it allocates where the heap asks for it, and where the new object would
otherwise break the limit. The references of the object count as roots of that collection, so they
need not be on the operand stack. Unless that collection faults, an allocation is one from the heap
that the machine has prepared so (`allocate_eq_prepared`).
-/

namespace MarkSweep.Machine

variable {φ : Type}

/-- Runs a full collection; `extra` is a root too. -/
def collect (m : Machine φ) (extra : Option Handle) : Outcome φ Fault (Machine φ) CycleStats :=
  let roots := m.roots.extend extra.toList
  m.onHeap fun heap => heap.collect roots

/-- Whether an allocation of `size` bytes begins with a collection. -/
def collectsFor (m : Machine φ) (size : UInt64) : Bool :=
  m.heap.shouldCollect || m.heap.wouldExceed size

/-- Allocates an object, after a collection if one is called for. -/
def allocate (m : Machine φ) (object : Object) (finalizer : Option φ) (granted : Bool) :
    Outcome φ AllocationError (Machine φ) Handle :=
  if m.collectsFor object.size then
    let triggered : Event φ := .collectionTriggered m.heap.objectsAllocated m.heap.bytesAllocated
    let roots := m.roots.extend object.references
    let collected := m.onHeap fun heap => heap.collect roots
    let events := triggered :: collected.events
    match collected.answer with
    | .error fault => ⟨.error (.fault fault), collected.state, events⟩
    | .ok _ =>
      (collected.state.onHeap fun heap =>
        heap.allocate object object.size finalizer granted).after events
  else
    m.onHeap fun heap => heap.allocate object object.size finalizer granted

/-- The heap that an object is put into: that of the machine, after a collection if one is called
for. -/
def prepared (m : Machine φ) (object : Object) : Heap φ :=
  if m.collectsFor object.size then (m.heap.collect (m.roots.extend object.references)).state
  else m.heap

/-! ### The three courses of an allocation -/

section Allocate

variable {m : Machine φ} {object : Object}

theorem allocate_of_not_collectsFor (hcollects : m.collectsFor object.size = false)
    (finalizer : Option φ) (granted : Bool) : m.allocate object finalizer granted =
      m.onHeap fun heap => heap.allocate object object.size finalizer granted := by
  simp [allocate, hcollects]

theorem allocate_of_collect_error (hcollects : m.collectsFor object.size) {fault : Fault}
    (hanswer : (m.heap.collect (m.roots.extend object.references)).answer = .error fault)
    (finalizer : Option φ) (granted : Bool) : m.allocate object finalizer granted =
      ⟨.error (.fault fault), m.withHeap (m.heap.collect (m.roots.extend object.references)).state,
        .collectionTriggered m.heap.objectsAllocated m.heap.bytesAllocated ::
          (m.heap.collect (m.roots.extend object.references)).events⟩ := by
  simp [allocate, hcollects, hanswer]

theorem allocate_of_collect_ok (hcollects : m.collectsFor object.size) {stats : CycleStats}
    (hanswer : (m.heap.collect (m.roots.extend object.references)).answer = .ok stats)
    (finalizer : Option φ) (granted : Bool) : m.allocate object finalizer granted =
      ((m.withHeap (m.heap.collect (m.roots.extend object.references)).state).onHeap
        fun heap => heap.allocate object object.size finalizer granted).after
        (.collectionTriggered m.heap.objectsAllocated m.heap.bytesAllocated ::
          (m.heap.collect (m.roots.extend object.references)).events) := by
  simp [allocate, hcollects, hanswer]

/-- An allocation is one from the prepared heap, unless the collection before it faults. -/
theorem allocate_eq_prepared (hcollected : m.collectsFor object.size →
      ∃ cycle, (m.heap.collect (m.roots.extend object.references)).answer = .ok cycle)
    (finalizer : Option φ) (granted : Bool) :
    let o := (m.prepared object).allocate object object.size finalizer granted
    (m.allocate object finalizer granted).answer = o.answer ∧
      (m.allocate object finalizer granted).state = m.withHeap o.state := by
  rw [prepared]
  rcases hcollects : m.collectsFor object.size with _ | _
  · rw [allocate_of_not_collectsFor hcollects]
    exact ⟨rfl, rfl⟩
  · obtain ⟨cycle, hanswer⟩ := hcollected hcollects
    rw [allocate_of_collect_ok hcollects hanswer]
    exact ⟨rfl, rfl⟩

end Allocate

end MarkSweep.Machine
