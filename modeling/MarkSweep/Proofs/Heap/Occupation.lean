import MarkSweep.Heap.Allocate
import MarkSweep.Proofs.Heap.Links

/-!
# Putting one object in

An allocation that succeeds takes a slot that holds no object, from the free list or at the end of
the arena, and puts its handle in front of the list. `occupied_spec` says what becomes of the slots
in the same words for both, and everything else follows from it: the representation invariant is
kept and the list gains the one handle (`WellFormed.enter`), the handle was not live before, and
every object that was live is as it was.
-/

namespace MarkSweep.Heap

variable {φ : Type} {heap : Heap φ}

/-- The slot of a new object. -/
def newSlot (heap : Heap φ) (object : Object) (size : UInt64) (generation : UInt32) : Slot :=
  ⟨Header.make object.tag .white, heap.head, size, generation, some object⟩

/-- What becomes of the arena when an object is put into a slot: the slot held no object before,
and the other slots are left alone. -/
structure Occupied (heap : Heap φ) (object : Object) (size : UInt64) (h : Handle)
    (after : Heap φ) : Prop where
  /-- The slot of the new object. -/
  self : after.slots[h.slot]? = some (heap.newSlot object size h.generation)
  /-- The other slots. -/
  other : ∀ i, h.slot ≠ i → after.slots[i]? = heap.slots[i]?
  /-- The slot held no object. -/
  vacant : ∀ slot, heap.slots[h.slot]? = some slot → slot.object = none
  /-- The slot is no longer free. -/
  mem_free : ∀ i, i ∈ after.free ↔ i ∈ heap.free ∧ i ≠ h.index
  /-- The free list stays without repetition. -/
  free_nodup : after.free.Nodup
  /-- The arena stays within its bounds. -/
  slots_le : after.slots.size ≤ maxSlots
  /-- Nothing but slots and free list changes. -/
  rest : after = { heap with slots := after.slots, free := after.free }

section Occupy

variable (hw : heap.WellFormed) (object : Object) (size : UInt64)
include hw

/-- Without a free slot the arena grows, and the new slot is the one at its end. -/
theorem occupied_at_end (hfree : heap.free = []) (hlt : heap.slots.size < maxSlots) :
    heap.Occupied object size (heap.occupy object size).1 (heap.occupy object size).2 := by
  have hoccupy : heap.occupy object size = (⟨UInt32.ofNat heap.slots.size, 0⟩,
      { heap with slots := heap.slots.push (heap.newSlot object size 0) }) := by
    simp only [occupy, hfree]
    rfl
  have hindex : (⟨UInt32.ofNat heap.slots.size, 0⟩ : Handle).slot = heap.slots.size :=
    UInt32.toNat_ofNat_of_lt' hlt
  rw [hoccupy]
  refine ⟨?_, ?_, ?_, ?_, hw.free_nodup, ?_, rfl⟩
  · simp [hindex]
  · intro i hi
    rw [hindex] at hi
    simp only [Array.getElem?_push]
    rw [if_neg (Ne.symm hi)]
  · intro slot hs
    simp [hindex] at hs
  · intro i
    simp [hfree]
  · simpa using Nat.succ_le_of_lt hlt

/-- Otherwise the slot that was released last is taken, in the generation it has. -/
theorem occupied_released {index : UInt32} {rest : List UInt32}
    (hfree : heap.free = index :: rest) :
    heap.Occupied object size (heap.occupy object size).1 (heap.occupy object size).2 := by
  have hoccupy : heap.occupy object size =
      (⟨index, (heap.slots[index.toNat]?.map Slot.generation).getD 0⟩,
        { heap with
          slots := heap.slots.modify index.toNat fun _ => heap.newSlot object size
            ((heap.slots[index.toNat]?.map Slot.generation).getD 0)
          free := rest }) := by
    simp only [occupy, hfree]
    rfl
  obtain ⟨slot, hslot, hnone⟩ := (hw.free_iff index).1 (by simp [hfree])
  have hnodup := hw.free_nodup
  rw [hfree, List.nodup_cons] at hnodup
  rw [hoccupy]
  refine ⟨?_, ?_, ?_, ?_, hnodup.2, ?_, rfl⟩
  · simp [Handle.slot, Array.getElem?_modify, hslot]
  · intro i hi
    exact (Array.getElem?_modify ..).trans (if_neg hi)
  · intro s hs
    obtain rfl : slot = s := Option.some.inj (hslot.symm.trans hs)
    exact hnone
  · intro i
    simp only [hfree, List.mem_cons]
    grind
  · simpa using hw.slots_le

/-- Taking a slot for an object, if there is one to take. -/
theorem occupied_spec {granted : Bool} (hslot : heap.hasSlot granted) :
    heap.Occupied object size (heap.occupy object size).1 (heap.occupy object size).2 := by
  rcases hfree : heap.free with _ | ⟨index, rest⟩
  · simp only [hasSlot, hfree, List.isEmpty_nil, Bool.not_true, Bool.false_or, Bool.and_eq_true,
      decide_eq_true_eq] at hslot
    exact occupied_at_end hw object size hfree hslot.1
  · exact occupied_released hw object size hfree

end Occupy

namespace Occupied

variable {object : Object} {size : UInt64} {h k : Handle} {after : Heap φ}
  (ho : heap.Occupied object size h after)
include ho

theorem find?_self : after.find? h = some (heap.newSlot object size h.generation) :=
  find?_eq_some_iff.2 ⟨ho.self, rfl, rfl⟩

/-- No object was live in the slot. -/
theorem find?_eq_none (hk : h.slot = k.slot) : heap.find? k = none := by
  rcases hfind : heap.find? k with _ | slot
  · rfl
  · obtain ⟨hslot, -, hsome⟩ := find?_eq_some_iff.1 hfind
    have hnone := ho.vacant slot (hk ▸ hslot)
    simp [hnone] at hsome

/-- The handle is new. -/
theorem contains_eq_false : heap.contains h = false := by
  rw [contains, ho.find?_eq_none rfl]
  rfl

theorem slot_ne (hk : heap.contains k) : h.slot ≠ k.slot := by
  intro heq
  rw [contains, ho.find?_eq_none heq] at hk
  cases hk

theorem find?_of_slot_ne (hk : h.slot ≠ k.slot) : after.find? k = heap.find? k := by
  rw [find?, ho.other _ hk, find?]

/-- What was live stays as it was. -/
theorem find?_of_contains (hk : heap.contains k) : after.find? k = heap.find? k :=
  ho.find?_of_slot_ne (ho.slot_ne hk)

/-- What is found in the arena afterwards is the new object, or it was found before. -/
theorem find?_cases {slot : Slot} (hfind : after.find? k = some slot) :
    (k = h ∧ slot = heap.newSlot object size h.generation) ∨ heap.find? k = some slot := by
  by_cases hslot : h.slot = k.slot
  · have hself := contains_of_find? ho.find?_self
    obtain rfl := eq_of_slot_eq (contains_of_find? hfind) hself hslot.symm
    exact .inl ⟨rfl, Option.some.inj (hfind.symm.trans ho.find?_self)⟩
  · rw [ho.find?_of_slot_ne hslot] at hfind
    exact .inr hfind

/-- The new handle is live, and with it exactly those that were. -/
theorem contains_iff : after.contains k ↔ k = h ∨ heap.contains k := by
  constructor
  · intro hk
    obtain ⟨slot, -, hfind, -⟩ := exists_find?_of_contains hk
    exact (ho.find?_cases hfind).imp And.left contains_of_find?
  · rintro (rfl | hk)
    · exact contains_of_find? ho.find?_self
    · rw [contains, ho.find?_of_contains hk]
      exact hk

end Occupied

/-- **An allocation keeps the invariant**, and puts one handle in front of the list. -/
theorem WellFormed.enter (hw : heap.WellFormed) {object : Object} {size : UInt64} {h : Handle}
    {after : Heap φ} (ho : heap.Occupied object size h after) (finalizer : Option φ) :
    (after.enter h size finalizer).WellFormed ∧
      (after.enter h size finalizer).handles = h :: heap.handles := by
  have hne (k : Handle) (hk : k ∈ heap.handles) : h.slot ≠ k.slot := ho.slot_ne (hw.live k hk)
  have hlinked : Linked after.slots (some h) (h :: heap.handles) := by
    refine .cons ho.self (hw.linked.congr fun k hk => ?_)
    rw [ho.other _ (hne k hk)]
  have hnodup : ((h :: heap.handles).map Handle.slot).Nodup := by
    rw [List.map_cons, List.nodup_cons]
    refine ⟨fun hmem => ?_, hw.nodup⟩
    obtain ⟨k, hk, heq⟩ := List.mem_map.1 hmem
    exact hne k hk heq.symm
  have hcharge : after.chargeOf h = size := by simp [chargeOf, ho.self, newSlot]
  have hcharges : after.charges heap.handles = heap.charges heap.handles := by
    refine charges_congr fun k hk => ?_
    rw [chargeOf, ho.other _ (hne k hk), chargeOf]
  refine ⟨?_, handles_eq_of_linked hlinked hnodup⟩
  refine .of_list hlinked hnodup ?live ?listed ho.free_nodup ?free_iff ho.slots_le ?objects ?bytes
    ?finalizers
  case live =>
    intro k hk
    refine ho.contains_iff.2 ?_
    exact (List.mem_cons.1 hk).imp_right (hw.live k)
  case listed =>
    intro k hk
    exact List.mem_cons.2 ((ho.contains_iff.1 hk).imp_right (hw.listed k))
  case free_iff =>
    intro i
    have hslots : (after.enter h size finalizer).slots = after.slots := rfl
    have hfree : (after.enter h size finalizer).free = after.free := rfl
    rw [hfree, ho.mem_free, hw.free_iff, hslots]
    by_cases hi : h.slot = i.toNat
    · have hindex : i = h.index := UInt32.toNat_inj.1 hi.symm
      rw [← hi, ho.self]
      simp [hindex, newSlot]
    · have hindex : i ≠ h.index := fun heq => hi (heq ▸ rfl)
      rw [ho.other _ hi]
      simp [hindex]
  case objects =>
    have hcount : after.objectsAllocated = heap.objectsAllocated :=
      (congrArg Heap.objectsAllocated ho.rest :)
    change after.objectsAllocated + 1 = _
    rw [hcount, hw.objects_eq, List.length_cons, UInt64.ofNat_add]
    rfl
  case bytes =>
    have hbytes : after.bytesAllocated = heap.bytesAllocated :=
      (congrArg Heap.bytesAllocated ho.rest :)
    change after.bytesAllocated + size = UInt64.ofNat (after.charges (h :: heap.handles))
    rw [hbytes, hw.bytes_eq, charges_cons, hcharge, hcharges, UInt64.ofNat_add, UInt64.ofNat_toNat,
      UInt64.add_comm]
  case finalizers =>
    intro k hk
    have hfinalizers : after.finalizers = heap.finalizers :=
      (congrArg Heap.finalizers ho.rest :)
    refine ho.contains_iff.2 ?_
    change k ∈ finalizer.elim after.finalizers (after.finalizers.insert h) at hk
    rw [hfinalizers] at hk
    rcases finalizer with _ | f
    · exact .inr (hw.finalizers_live k hk)
    · rcases Std.TreeMap.mem_insert.1 hk with heq | hk
      · exact .inl (Std.LawfulEqOrd.eq_of_compare heq).symm
      · exact .inr (hw.finalizers_live k hk)

/-! ### Allocations -/

variable {object : Object} {size : UInt64} {granted : Bool}

/-- References are looked at before anything else. -/
theorem allocate_of_stale {r : Handle} (hstale : heap.stale? object.references = some r)
    (size : UInt64) (finalizer : Option φ) (granted : Bool) :
    heap.allocate object size finalizer granted =
      .quiet (.error (.fault (.staleHandle r))) heap := by
  simp [allocate, hstale]

theorem allocate_of_refused (hlive : ∀ r ∈ object.references, heap.contains r)
    (hrefused : heap.wouldExceed size ∨ heap.hasSlot granted = false) (finalizer : Option φ) :
    heap.allocate object size finalizer granted =
      .quiet (.error (.outOfMemory (heap.outOfMemory size))) heap := by
  simp [allocate, stale?_eq_none_iff.2 hlive, hrefused]

theorem allocate_of_admitted (hlive : ∀ r ∈ object.references, heap.contains r)
    (hlimit : heap.wouldExceed size = false) (hslot : heap.hasSlot granted)
    (finalizer : Option φ) :
    heap.allocate object size finalizer granted =
      ⟨.ok (heap.occupy object size).1,
        (heap.occupy object size).2.enter (heap.occupy object size).1 size finalizer,
        [.allocated (heap.occupy object size).1 object.tag size]⟩ := by
  simp [allocate, stale?_eq_none_iff.2 hlive, hlimit, hslot]

/-- **What an allocation can come to**: a reference of the object is stale, or the allocation is
refused, or it goes through. Only the last changes the heap. -/
theorem allocate_cases (hw : heap.WellFormed) (object : Object) (size : UInt64)
    (finalizer : Option φ) (granted : Bool) :
    (∃ r ∈ object.references, heap.contains r = false ∧
      heap.allocate object size finalizer granted =
        .quiet (.error (.fault (.staleHandle r))) heap) ∨
    ((heap.wouldExceed size ∨ heap.hasSlot granted = false) ∧
      heap.allocate object size finalizer granted =
        .quiet (.error (.outOfMemory (heap.outOfMemory size))) heap) ∨
    (∀ r ∈ object.references, heap.contains r) ∧ ∃ h after, heap.Occupied object size h after ∧
      heap.allocate object size finalizer granted =
        ⟨.ok h, after.enter h size finalizer, [.allocated h object.tag size]⟩ := by
  rcases hstale : heap.stale? object.references with _ | r
  · have hlive := stale?_eq_none_iff.1 hstale
    by_cases hrefused : heap.wouldExceed size ∨ heap.hasSlot granted = false
    · exact .inr (.inl ⟨hrefused, allocate_of_refused hlive hrefused finalizer⟩)
    · obtain ⟨hlimit, hslot⟩ := not_or.1 hrefused
      rw [Bool.not_eq_true] at hlimit
      rw [Bool.not_eq_false] at hslot
      exact .inr (.inr ⟨hlive, _, _, occupied_spec hw object size hslot,
        allocate_of_admitted hlive hlimit hslot finalizer⟩)
  · refine .inl ⟨r, List.mem_of_find?_eq_some hstale, ?_,
      allocate_of_stale hstale size finalizer granted⟩
    simpa using List.find?_some hstale

end MarkSweep.Heap
