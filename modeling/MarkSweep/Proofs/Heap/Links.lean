import MarkSweep.Heap.WellFormed

/-!
# The list of live objects

What the links through the slots do when slots change. `Linked.congr` is the frame rule: links
depend on the `next` of the slots they lead through and on nothing else. `Linked.bypass` takes one
handle out of the middle, as unlinking does.

The rest relates lists to heaps. A list without repeated slots that the links lead through is
`Heap.handles` (`handles_eq_of_linked`), since it cannot be longer than the arena; so a heap is
shown to be well formed by exhibiting its list (`WellFormed.of_list`).
-/

namespace MarkSweep.Heap

variable {φ : Type} {heap : Heap φ}

/-! ### Links -/

namespace Linked

variable {slots slots' : Array Slot} {cursor : Option Handle} {l pre post : List Handle}
  {h : Handle}

/-- The cursor is the first handle. -/
theorem cursor_eq (hl : Linked slots cursor l) : cursor = l.head? := by
  cases hl <;> rfl

theorem cons_iff : Linked slots cursor (h :: l) ↔
    cursor = some h ∧ ∃ slot, slots[h.slot]? = some slot ∧ Linked slots slot.next l := by
  constructor
  · rintro ⟨⟩
    exact ⟨rfl, _, ‹_›, ‹_›⟩
  · rintro ⟨rfl, slot, hslot, tail⟩
    exact .cons hslot tail

/-- The slot of a handle that is passed is in the arena. -/
theorem exists_slot (hl : Linked slots cursor l) (hh : h ∈ l) :
    ∃ slot, slots[h.slot]? = some slot := by
  induction hl with
  | nil => simp at hh
  | cons slot_eq _ ih =>
    rcases List.mem_cons.1 hh with rfl | hh
    · exact ⟨_, slot_eq⟩
    · exact ih hh

theorem slot_lt (hl : Linked slots cursor l) (hh : h ∈ l) : h.slot < slots.size := by
  obtain ⟨slot, hslot⟩ := hl.exists_slot hh
  exact (Array.getElem?_eq_some_iff.1 hslot).1

/-- **Frame rule.** Links depend on the `next` of the slots that they lead through. -/
theorem congr (hl : Linked slots cursor l)
    (hnext : ∀ k ∈ l, slots'[k.slot]?.map Slot.next = slots[k.slot]?.map Slot.next) :
    Linked slots' cursor l := by
  induction hl with
  | nil => exact .nil
  | @cons k slot rest slot_eq tail ih =>
    have hk := hnext k List.mem_cons_self
    rw [slot_eq, Option.map_some, Option.map_eq_some_iff] at hk
    obtain ⟨slot', hslot', heq⟩ := hk
    refine .cons hslot' ?_
    rw [heq]
    exact ih fun j hj => hnext j (List.mem_cons_of_mem k hj)

/-- What follows a handle in the list is what its slot says. -/
theorem next_eq (hl : Linked slots cursor (pre ++ h :: post)) :
    slots[h.slot]?.map Slot.next = some post.head? := by
  induction pre generalizing cursor with
  | nil =>
    obtain ⟨-, slot, hslot, tail⟩ := cons_iff.1 hl
    rw [hslot, Option.map_some, tail.cursor_eq]
  | cons k pre ih =>
    obtain ⟨-, slot, -, tail⟩ := cons_iff.1 hl
    exact ih tail

/-- **Bypass.** One handle leaves the list when the handle before it, or else the cursor, is
directed to what comes after it. -/
theorem bypass (hl : Linked slots cursor (pre ++ h :: post))
    (hlast : ∀ p, pre.getLast? = some p → slots'[p.slot]?.map Slot.next = some post.head?)
    (hpre : ∀ k ∈ pre.dropLast, slots'[k.slot]?.map Slot.next = slots[k.slot]?.map Slot.next)
    (hpost : ∀ k ∈ post, slots'[k.slot]?.map Slot.next = slots[k.slot]?.map Slot.next) :
    Linked slots' (if pre = [] then post.head? else cursor) (pre ++ post) := by
  induction pre generalizing cursor with
  | nil =>
    obtain ⟨-, slot, -, tail⟩ := cons_iff.1 hl
    have hcursor := tail.cursor_eq
    rw [if_pos rfl, ← hcursor]
    exact tail.congr hpost
  | cons k pre ih =>
    obtain ⟨rfl, slot, hslot, tail⟩ := cons_iff.1 hl
    rw [if_neg (List.cons_ne_nil k pre)]
    rcases pre with _ | ⟨j, pre⟩
    · -- `k` comes right before `h`, and its new link leads past it
      obtain ⟨slot', hslot', heq⟩ := Option.map_eq_some_iff.1 (hlast k rfl)
      refine .cons hslot' ?_
      rw [heq]
      simpa using ih tail (by simp) (by simp)
    · -- `k` keeps its link, and the handle to leave comes later
      have hk := hpre k (by simp)
      rw [hslot, Option.map_some, Option.map_eq_some_iff] at hk
      obtain ⟨slot', hslot', heq⟩ := hk
      refine .cons hslot' ?_
      rw [heq]
      exact ih tail (fun p hp => hlast p (by simpa using hp))
        fun i hi => hpre i (by simpa using Or.inr hi)

end Linked

/-! ### The list of a heap -/

/-- Among numbers below a bound, no more than the bound are different. -/
private theorem length_le_of_nodup_of_lt {l : List Nat} {n : Nat} (hnodup : l.Nodup)
    (hlt : ∀ i ∈ l, i < n) : l.length ≤ n := by
  have hle := hnodup.length_le_of_subset fun i hi => List.mem_range.2 (hlt i hi)
  rwa [List.length_range] at hle

/-- The list of a heap takes up no more slots than there are. -/
theorem length_le_of_linked {l : List Handle} (hl : Linked heap.slots heap.head l)
    (hnodup : (l.map Handle.slot).Nodup) : l.length ≤ heap.slots.size := by
  rw [← List.length_map Handle.slot]
  refine length_le_of_nodup_of_lt hnodup fun i hi => ?_
  obtain ⟨h, hh, rfl⟩ := List.mem_map.1 hi
  exact hl.slot_lt hh

/-- A list that the links lead through, without repeated slots, is the list of the heap. -/
theorem handles_eq_of_linked {l : List Handle} (hl : Linked heap.slots heap.head l)
    (hnodup : (l.map Handle.slot).Nodup) : heap.handles = l :=
  handlesFrom_eq_of_linked hl (length_le_of_linked hl hnodup)

/-! ### Lookups -/

section Lookups

variable {h k : Handle} {slot : Slot} {object : Object}

theorem contains_of_find? (hfind : heap.find? h = some slot) : heap.contains h := by
  rw [contains, hfind]
  rfl

/-- The slot of a live handle is what a lookup finds. -/
theorem find?_of_contains (hlive : heap.contains h) (hslot : heap.slots[h.slot]? = some slot) :
    heap.find? h = some slot := by
  obtain ⟨found, hfind⟩ := Option.isSome_iff_exists.1 hlive
  obtain rfl := Option.some.inj (hslot.symm.trans (find?_eq_some_iff.1 hfind).1)
  exact hfind

/-- A slot that a lookup finds has an object. -/
theorem exists_object_of_find? (hfind : heap.find? h = some slot) :
    ∃ object, slot.object = some object :=
  Option.isSome_iff_exists.1 (find?_eq_some_iff.1 hfind).2.2

theorem exists_find?_of_contains (hlive : heap.contains h) :
    ∃ slot object, heap.find? h = some slot ∧ slot.object = some object := by
  obtain ⟨slot, hfind⟩ := Option.isSome_iff_exists.1 hlive
  obtain ⟨object, hobject⟩ := exists_object_of_find? hfind
  exact ⟨slot, object, hfind, hobject⟩

theorem get?_of_find? (hfind : heap.find? h = some slot) (hobject : slot.object = some object) :
    heap.get? h = some object := by
  rw [get?, hfind, Option.bind_some, hobject]

theorem exists_find?_of_get? (hget : heap.get? h = some object) :
    ∃ slot, heap.find? h = some slot ∧ slot.object = some object :=
  Option.bind_eq_some_iff.1 hget

theorem contains_of_get? (hget : heap.get? h = some object) : heap.contains h := by
  obtain ⟨slot, hfind, -⟩ := exists_find?_of_get? hget
  exact contains_of_find? hfind

theorem exists_get?_of_contains (hlive : heap.contains h) :
    ∃ object, heap.get? h = some object := by
  obtain ⟨slot, object, hfind, hobject⟩ := exists_find?_of_contains hlive
  exact ⟨object, get?_of_find? hfind hobject⟩

theorem find?_eq_none (hstale : heap.contains h = false) : heap.find? h = none :=
  Option.isNone_iff_eq_none.1 (Option.isSome_eq_false_iff.1 hstale)

theorem get?_eq_none (hstale : heap.contains h = false) : heap.get? h = none := by
  rw [get?, find?_eq_none hstale, Option.bind_none]

/-- Live handles of one slot are one handle. -/
theorem eq_of_slot_eq (hh : heap.contains h) (hk : heap.contains k)
    (hslot : h.slot = k.slot) : h = k := by
  obtain ⟨s, -, hs, -⟩ := exists_find?_of_contains hh
  obtain ⟨t, -, ht, -⟩ := exists_find?_of_contains hk
  obtain ⟨hs, hgen, -⟩ := find?_eq_some_iff.1 hs
  obtain ⟨ht, hgen', -⟩ := find?_eq_some_iff.1 ht
  rw [hslot, ht, Option.some.injEq] at hs
  subst hs
  rcases h with ⟨i, g⟩
  rcases k with ⟨j, g'⟩
  obtain rfl : i = j := UInt32.toNat_inj.1 hslot
  obtain rfl : g = g' := hgen.symm.trans hgen'
  rfl

/-- Another handle of the slot of a live object is stale. -/
theorem find?_eq_none_of_slot_eq (hh : heap.contains h) (hslot : h.slot = k.slot) (hne : k ≠ h) :
    heap.find? k = none := by
  refine find?_eq_none ?_
  rw [Bool.eq_false_iff]
  intro hk
  exact hne (eq_of_slot_eq hh hk hslot).symm

end Lookups

/-! ### Well-formed heaps -/

/-- A heap is well formed when some list is as the invariant says. -/
theorem WellFormed.of_list {l : List Handle} (linked : Linked heap.slots heap.head l)
    (nodup : (l.map Handle.slot).Nodup) (live : ∀ h ∈ l, heap.contains h)
    (listed : ∀ h, heap.contains h → h ∈ l) (free_nodup : heap.free.Nodup)
    (free_iff : ∀ i : UInt32, i ∈ heap.free ↔ ∃ slot, heap.slots[i.toNat]? = some slot ∧
      slot.object = none)
    (slots_le : heap.slots.size ≤ maxSlots)
    (objects_eq : heap.objectsAllocated = UInt64.ofNat l.length)
    (bytes_eq : heap.bytesAllocated = UInt64.ofNat (heap.charges l))
    (finalizers_live : ∀ h ∈ heap.finalizers, heap.contains h) : heap.WellFormed := by
  obtain rfl := handles_eq_of_linked linked nodup
  exact ⟨linked, nodup, live, listed, free_nodup, free_iff, slots_le, objects_eq, bytes_eq,
    finalizers_live⟩

namespace WellFormed

variable (hw : heap.WellFormed)
include hw

/-- Thresholds, configuration and totals do not matter. -/
theorem withSettings (objectsThreshold bytesThreshold : UInt64) (config : Config)
    (stats : HeapStats) :
    WellFormed { heap with objectsThreshold, bytesThreshold, config, stats } :=
  ⟨hw.linked, hw.nodup, hw.live, hw.listed, hw.free_nodup, hw.free_iff, hw.slots_le,
    hw.objects_eq, hw.bytes_eq, hw.finalizers_live⟩

/-- The objects fit in the arena. -/
theorem length_handles_le : heap.handles.length ≤ heap.slots.size :=
  length_le_of_linked hw.linked hw.nodup

/-- A count of live objects fits in a word: the arena is too small for more. -/
theorem toNat_ofNat {n : Nat} (hn : n ≤ heap.handles.length) : (UInt64.ofNat n).toNat = n := by
  have hle := Nat.le_trans hw.length_handles_le hw.slots_le
  have hmax : maxSlots < UInt64.size := by decide
  exact UInt64.toNat_ofNat_of_lt' (by omega)

theorem toNat_objectsAllocated : heap.objectsAllocated.toNat = heap.handles.length := by
  rw [hw.objects_eq]
  exact hw.toNat_ofNat (Nat.le_refl _)

/-- The bytes are the true total as long as a word can hold it. -/
theorem toNat_bytesAllocated (hfit : heap.totalCharge < UInt64.size) :
    heap.bytesAllocated.toNat = heap.totalCharge := by
  rw [hw.bytes_eq]
  exact UInt64.toNat_ofNat_of_lt' hfit

theorem handles_nodup : heap.handles.Nodup :=
  List.Pairwise.of_map Handle.slot (fun _ _ hne heq => hne (heq ▸ rfl)) hw.nodup

theorem mem_handles_iff {h : Handle} : h ∈ heap.handles ↔ heap.contains h :=
  ⟨hw.live h, hw.listed h⟩

/-- The slot of a live object is not on the free list. -/
theorem not_mem_free {h : Handle} (hlive : heap.contains h) : h.index ∉ heap.free := by
  intro hmem
  obtain ⟨slot, hslot, hvacant⟩ := (hw.free_iff h.index).1 hmem
  obtain ⟨object, hobject⟩ := exists_object_of_find? (find?_of_contains hlive hslot)
  rw [hvacant] at hobject
  cases hobject

end WellFormed

end MarkSweep.Heap
