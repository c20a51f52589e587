import MarkSweep.Heap.Allocate

/-!
# The representation invariant

A heap is well formed when its list, its free list, its finalizers and its counters agree with
the slots of the arena. `Heap.Linked` says what the list is, as a relation that involves no bound:
the links from a cursor lead through the given handles and end. `handlesFrom_eq_of_linked`
connects it to the bounded walk, which therefore never cuts a list short.
-/

namespace MarkSweep.Heap

variable {φ : Type}

/-- The links from a cursor lead through the slots of these handles, in order, and end. -/
inductive Linked (slots : Array Slot) : Option Handle → List Handle → Prop
  /-- An absent cursor ends the list. -/
  | nil : Linked slots none []
  /-- A cursor is the first handle, and its slot holds the next cursor. -/
  | cons {h : Handle} {slot : Slot} {rest : List Handle} (slot_eq : slots[h.slot]? = some slot)
      (tail : Linked slots slot.next rest) : Linked slots (some h) (h :: rest)

/-- The bounded walk finds the whole list, if the bound admits it. -/
theorem handlesFrom_eq_of_linked {slots : Array Slot} {cursor : Option Handle} {l : List Handle}
    (hl : Linked slots cursor l) {bound : Nat} (hbound : l.length ≤ bound) :
    handlesFrom slots bound cursor = l := by
  induction hl generalizing bound with
  | nil => cases bound <;> rfl
  | cons slot_eq _ ih =>
    cases bound with
    | zero => simp at hbound
    | succ bound =>
      rw [handlesFrom, slot_eq]
      exact congrArg _ (ih (by simpa using hbound))

/-- A cursor determines the list. -/
theorem Linked.unique {slots : Array Slot} {cursor : Option Handle} {l l' : List Handle}
    (hl : Linked slots cursor l) (hl' : Linked slots cursor l') : l = l' := by
  rw [← handlesFrom_eq_of_linked hl (Nat.le_max_left l.length l'.length),
    handlesFrom_eq_of_linked hl' (Nat.le_max_right l.length l'.length)]

/-- The bytes charged for the object in a slot. -/
def chargeOf (heap : Heap φ) (h : Handle) : UInt64 :=
  (heap.slots[h.slot]?.map Slot.size).getD 0

/-- The bytes charged for the objects of a list, together. No word size bounds them. -/
def charges (heap : Heap φ) (l : List Handle) : Nat :=
  l.foldr (fun h total => (heap.chargeOf h).toNat + total) 0

/-- The bytes charged for all live objects. -/
def totalCharge (heap : Heap φ) : Nat := heap.charges heap.handles

section Charges

variable {heap : Heap φ}

@[simp]
theorem charges_nil : heap.charges [] = 0 := rfl

@[simp]
theorem charges_cons (h : Handle) (l : List Handle) :
    heap.charges (h :: l) = (heap.chargeOf h).toNat + heap.charges l := rfl

@[simp]
theorem charges_append (l l' : List Handle) :
    heap.charges (l ++ l') = heap.charges l + heap.charges l' := by
  induction l with
  | nil => simp
  | cons h l ih => rw [List.cons_append, charges_cons, charges_cons, ih, Nat.add_assoc]

theorem charges_congr {after : Heap φ} {l : List Handle}
    (hl : ∀ h ∈ l, after.chargeOf h = heap.chargeOf h) : after.charges l = heap.charges l := by
  induction l with
  | nil => rfl
  | cons h l ih =>
    rw [charges_cons, charges_cons, hl h List.mem_cons_self,
      ih fun k hk => hl k (List.mem_cons_of_mem h hk)]

theorem charges_le_of_sublist {l l' : List Handle} (hl : l.Sublist l') :
    heap.charges l ≤ heap.charges l' := by
  induction hl with
  | slnil => exact Nat.le_refl 0
  | cons h _ ih => exact Nat.le_trans ih (Nat.le_add_left _ _)
  | cons_cons h _ ih => exact Nat.add_le_add_left ih _

theorem chargeOf_le_charges {h : Handle} {l : List Handle} (hh : h ∈ l) :
    (heap.chargeOf h).toNat ≤ heap.charges l :=
  charges_le_of_sublist (List.singleton_sublist.2 hh)

end Charges

/-- **The representation invariant.** The list visits exactly the occupied slots, each once and in
its generation; the free list holds exactly the other slots, each once; the counters are those of
the list; and every finalizer belongs to a live object. -/
structure WellFormed (heap : Heap φ) : Prop where
  /-- The links lead through `Heap.handles` and end. -/
  linked : Linked heap.slots heap.head heap.handles
  /-- No slot is visited twice. -/
  nodup : (heap.handles.map Handle.slot).Nodup
  /-- Every handle in the list is live. -/
  live : ∀ h ∈ heap.handles, heap.contains h
  /-- Every live handle is in the list. -/
  listed : ∀ h, heap.contains h → h ∈ heap.handles
  /-- No slot is on the free list twice. -/
  free_nodup : heap.free.Nodup
  /-- The free list holds the slots without an object. -/
  free_iff : ∀ i : UInt32, i ∈ heap.free ↔ ∃ slot, heap.slots[i.toNat]? = some slot ∧
    slot.object = none
  /-- Every slot has a position that fits in a handle. -/
  slots_le : heap.slots.size ≤ maxSlots
  /-- The objects are counted. -/
  objects_eq : heap.objectsAllocated = UInt64.ofNat heap.handles.length
  /-- The charges are added up. -/
  bytes_eq : heap.bytesAllocated = UInt64.ofNat (heap.charges heap.handles)
  /-- The object of a finalizer is live. -/
  finalizers_live : ∀ h ∈ heap.finalizers, heap.contains h

/-- An empty heap is well formed. -/
theorem wellFormed_ofConfig (config : Config) : (ofConfig config : Heap φ).WellFormed where
  linked := .nil
  nodup := .nil
  live := by simp [handles, handlesFrom, ofConfig]
  listed := by simp [contains, find?, ofConfig]
  free_nodup := .nil
  free_iff := by simp [ofConfig]
  slots_le := Nat.zero_le _
  objects_eq := rfl
  bytes_eq := rfl
  finalizers_live := by simp [ofConfig]

end MarkSweep.Heap
