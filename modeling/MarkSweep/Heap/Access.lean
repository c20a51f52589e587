import MarkSweep.Heap.Basic

/-!
# Access to live objects

Payloads are changed in place. `Heap.edit` changes one in any way that its variant admits, and
`Heap.store` writes a reference after making sure that the object it refers to is live. Both need
a live target, and neither touches the header, the charged size or the finalizer of its target.
-/

namespace MarkSweep.Heap

variable {φ : Type}

/-- Changes the payload of an object that has to be live. The answer tells whether the change
applies to the variant at hand; one that does not leaves the heap as it is. -/
def edit (heap : Heap φ) (target : Handle) (change : Object → Option Object) :
    Outcome φ Fault (Heap φ) Bool :=
  match heap.get? target with
  | none => .quiet (.error (.staleHandle target)) heap
  | some object =>
    match change object with
    | none => .quiet (.ok false) heap
    | some object =>
      .quiet (.ok true) (heap.updateSlot target fun slot => { slot with object := some object })

/-- Replaces the payload of an object that has to be live. -/
def replace (heap : Heap φ) (target : Handle) (object : Object) : Outcome φ Fault (Heap φ) Bool :=
  heap.edit target fun _ => some object

/-- Appends integers to a vector, which has to be live. -/
def append (heap : Heap φ) (target : Handle) (items : Array Int64) :
    Outcome φ Fault (Heap φ) Bool :=
  heap.edit target (Object.append items)

/-- Writes a reference without looking at the object that it refers to. -/
def storeUnchecked (heap : Heap φ) (target : Handle) (field : RefField) (ref : Option Handle) :
    Outcome φ Fault (Heap φ) Bool :=
  heap.edit target fun object => object.store field ref

/-- The first of some references whose object is not live. -/
def stale? (heap : Heap φ) (refs : List Handle) : Option Handle :=
  refs.find? fun r => !heap.contains r

/-- Writes a reference to an object that has to be live. -/
def store (heap : Heap φ) (target : Handle) (field : RefField) (ref : Option Handle) :
    Outcome φ Fault (Heap φ) Bool :=
  match heap.stale? ref.toList with
  | some r => .quiet (.error (.staleHandle r)) heap
  | none => heap.storeUnchecked target field ref

/-- No reference is stale exactly when all are live. -/
theorem stale?_eq_none_iff {heap : Heap φ} {refs : List Handle} :
    heap.stale? refs = none ↔ ∀ r ∈ refs, heap.contains r := by
  simp [stale?, List.find?_eq_none]

end MarkSweep.Heap
