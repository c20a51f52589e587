import MarkSweep.Heap.Ledger

/-!
# Listings

An iteration over a heap goes from the newest object to the oldest, one link at a time, and no bound
is put on the number of its steps. `Heap.Iterates` is the relation between the cursor that it starts
from and what it gives until there is no cursor left.

What it should give can be told from the history of the heap alone, without a look at slots and
links: the objects that were put in and that no later call released, each with the payload that it
has in the end (`Heap.standing`).
-/

namespace MarkSweep.Heap

variable {φ : Type}

/-! ### Iteration -/

/-- An iteration from a cursor gives these objects, one after the other, and is then out of
cursors. It does not end at a slot that is missing or free. -/
inductive Iterates (slots : Array Slot) : Option Handle → List (Handle × Object) → Prop
  /-- There is no cursor left. -/
  | done : Iterates slots none []
  /-- The slot of the cursor has a payload to give, and holds the next cursor. -/
  | item {h : Handle} {slot : Slot} {object : Object} {rest : List (Handle × Object)}
      (slot_eq : slots[h.slot]? = some slot) (object_eq : slot.object = some object)
      (tail : Iterates slots slot.next rest) : Iterates slots (some h) ((h, object) :: rest)

/-! ### What a history should leave -/

/-- The object that a call is to put in. -/
def Op.object? : Op φ → Option Object
  | allocate object _ _ _ => some object
  | edit _ _ | store _ _ _ | mark _ | sweep | collect _ | releaseAll => none

/-- The object that a call puts in, with its handle. An allocation that fails puts none in. -/
def Op.entered (heap : Heap φ) (op : Op φ) : Option (Handle × Object) :=
  (op.issued heap).bind fun h => op.object?.map fun object => (h, object)

/-- Of some objects those that no call of a history releases, with the payloads that they have in
the end. -/
def survivors (heap : Heap φ) (ops : List (Op φ)) (l : List (Handle × Object)) :
    List (Handle × Object) :=
  (l.filter fun e => e.1 ∉ heap.released ops).map fun e => (e.1, heap.payload e.1 e.2 ops)

/-- The objects that the calls of a history put in and that the calls after those do not release,
oldest first, with the payloads that they have in the end. -/
def standing (heap : Heap φ) : List (Op φ) → List (Handle × Object)
  | [] => []
  | op :: ops =>
    (op.perform heap).state.survivors ops (op.entered heap).toList ++
      standing (op.perform heap).state ops

theorem released_singleton (heap : Heap φ) (op : Op φ) : heap.released [op] = op.released heap :=
  List.append_nil _

section Survivors

variable (heap : Heap φ) (op : Op φ) (ops : List (Op φ)) (l l' : List (Handle × Object))

@[simp]
theorem survivors_nil : heap.survivors [] l = l := by
  simp [survivors, released, ledger, payload]

@[simp]
theorem survivors_append :
    heap.survivors ops (l ++ l') = heap.survivors ops l ++ heap.survivors ops l' := by
  rw [survivors, List.filter_append, List.map_append]
  rfl

theorem survivors_cons : heap.survivors (op :: ops) l =
    (op.perform heap).state.survivors ops (heap.survivors [op] l) := by
  rw [survivors, survivors, survivors, released_cons, released_singleton, List.filter_map,
    List.map_map, List.filter_filter]
  refine congrArg (List.map _) (List.filter_congr fun e _ => ?_)
  simp [and_comm]

/-- A call that changes no payload takes out what it releases, and no more. -/
theorem survivors_of_payload_eq {heap : Heap φ} {op : Op φ}
    (hpayload : ∀ h object, op.payload heap h object = object) (l : List (Handle × Object)) :
    heap.survivors [op] l = l.filter fun e => e.1 ∉ op.released heap := by
  rw [survivors, released_singleton]
  simp [payload, hpayload]

/-- A call that releases nothing keeps every handle. -/
theorem map_fst_survivors {heap : Heap φ} {op : Op φ} (hreleased : op.released heap = [])
    (l : List (Handle × Object)) : (heap.survivors [op] l).map Prod.fst = l.map Prod.fst := by
  rw [survivors, released_singleton, hreleased, List.map_map]
  exact congrArg (List.map Prod.fst) (List.filter_eq_self.2 (by simp))

end Survivors

end MarkSweep.Heap
