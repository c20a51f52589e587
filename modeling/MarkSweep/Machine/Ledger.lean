import MarkSweep.Heap.Ledger
import MarkSweep.Machine.History
import MarkSweep.Machine.Release

/-!
# The ledger of a machine

The account of a history of a machine, whose calls may be calls of its heap as well, is that of the
heap: every call comes down to calls of the heap, and so does giving up a machine and freeing one.
What runs in a call, and what it registers, is still read off the events and the answer of the call
itself.
-/

namespace MarkSweep.Machine

variable {φ α : Type}

namespace Call

/-- The runs of finalizers during a call, in order. -/
def finalized (m : Machine φ) : Call φ → List (Finalization φ)
  | ofMachine op => Event.finalizations (op.perform m).events
  | ofHeap op => op.finalized m.heap

/-- The finalizer that a call registers, with the handle of its object. An allocation that fails
registers none. -/
def registered (m : Machine φ) : Call φ → Option (Handle × φ)
  | ofMachine (.allocate object finalizer granted) =>
    (m.allocate object finalizer granted).answer.toOption.bind fun h =>
      finalizer.map fun finalizer => (h, finalizer)
  | ofMachine _ => none
  | ofHeap op => op.registered m.heap

/-- The calls of the heap that a call comes down to. -/
def heapOps (m : Machine φ) : Call φ → List (Heap.Op φ)
  | ofMachine (.allocate object finalizer granted) =>
    let entry := .allocate object object.size finalizer granted
    if m.collectsFor object.size then
      let roots := m.roots.extend object.references
      match (m.heap.collect roots).answer with
      | .ok _ => [.collect roots, entry]
      | .error _ => [.collect roots]
    else [entry]
  | ofMachine (.collect extra) => [.collect (m.roots.extend extra.toList)]
  | ofMachine (.store target field ref) => [.store target field ref]
  | ofMachine (.append target items) => [.edit target (Object.append items)]
  | ofMachine (.push _ _) | ofMachine .pop | ofMachine (.truncate _) | ofMachine .clear
  | ofMachine (.setEnv _) => []
  | ofHeap op => [op]

section Allocate

variable {m : Machine φ} {object : Object}

theorem heapOps_of_not_collectsFor (hcollects : m.collectsFor object.size = false)
    (finalizer : Option φ) (granted : Bool) :
    (ofMachine (.allocate object finalizer granted)).heapOps m =
      [.allocate object object.size finalizer granted] := by
  simp [heapOps, hcollects]

theorem heapOps_of_collect_error (hcollects : m.collectsFor object.size) {fault : Fault}
    (hanswer : (m.heap.collect (m.roots.extend object.references)).answer = .error fault)
    (finalizer : Option φ) (granted : Bool) :
    (ofMachine (.allocate object finalizer granted)).heapOps m =
      [.collect (m.roots.extend object.references)] := by
  simp [heapOps, hcollects, hanswer]

theorem heapOps_of_collect_ok (hcollects : m.collectsFor object.size) {stats : CycleStats}
    (hanswer : (m.heap.collect (m.roots.extend object.references)).answer = .ok stats)
    (finalizer : Option φ) (granted : Bool) :
    (ofMachine (.allocate object finalizer granted)).heapOps m =
      [.collect (m.roots.extend object.references),
        .allocate object object.size finalizer granted] := by
  simp [heapOps, hcollects, hanswer]

end Allocate

end Call

/-- What the calls of a history account for, one after the other. -/
def ledger (item : Machine φ → Call φ → List α) (m : Machine φ) : List (Call φ) → List α
  | [] => []
  | call :: calls => item m call ++ ledger item (call.state m) calls

/-- The runs of finalizers. -/
def finalized (m : Machine φ) (calls : List (Call φ)) : List (Finalization φ) :=
  m.ledger Call.finalized calls

/-- The finalizers registered, with the handles of their objects. -/
def registered (m : Machine φ) (calls : List (Call φ)) : List (Handle × φ) :=
  m.ledger (fun m call => (call.registered m).toList) calls

/-- The calls of the heap that a history comes down to. -/
def heapOps (m : Machine φ) (calls : List (Call φ)) : List (Heap.Op φ) :=
  m.ledger Call.heapOps calls

/-- The calls of the heap that giving up a machine comes to. -/
def closing (m : Machine φ) : List (Heap.Op φ) :=
  if m.heap.isEmpty then m.heap.closing else .releaseAll :: m.release.state.heap.closing

/-- The calls of the heap that freeing a machine comes to, which is then given up. -/
def freeing (m : Machine φ) : List (Heap.Op φ) := .releaseAll :: m.release.state.closing

end MarkSweep.Machine
