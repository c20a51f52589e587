import Mathlib.Data.List.Basic
import MarkSweep.Heap.Sweep
import MarkSweep.Proofs.Heap.Erasure
import MarkSweep.Proofs.Heap.Links

/-!
# Taking one object out

A sweep unlinks an object and gives its slot back in one go, so the representation invariant holds
before and after: `WellFormed.remove` says so, and that the list loses the one handle. What happens
to the slots is said slot by slot. The slot of the object is vacated, the slot before it in the
list gets another link, and no other slot is touched; `Slot.detached` forgets the link, so that
away from the removed object nothing is seen to change (`map_detached_remove`).
-/

namespace MarkSweep

/-- The slot without its link. -/
def Slot.detached (s : Slot) : Slot := { s with next := none }

@[simp]
theorem Slot.isLive_detached (generation : UInt32) (s : Slot) :
    s.detached.isLive generation = s.isLive generation := rfl

/-- Slots that agree without their links differ by their links at most. -/
theorem Slot.eq_of_detached_eq {s t : Slot} (h : s.detached = t.detached) :
    s = { t with next := s.next } :=
  calc s = { s.detached with next := s.next } := rfl
    _ = { t.detached with next := s.next } := by rw [h]

namespace Heap

variable {φ : Type} {heap : Heap φ}

/-- Takes the object of a handle out of the list, given the handle before it, and gives its slot
back. -/
def remove (heap : Heap φ) (prev : Option Handle) (h : Handle) (slot : Slot) : Heap φ :=
  (heap.unlink prev slot.next).vacate h slot.size

section Slots

variable {prev : Option Handle} {h k : Handle} {slot : Slot}

theorem head_remove :
    (heap.remove prev h slot).head = if prev = none then slot.next else heap.head := by
  rcases prev with _ | p <;> rfl

theorem free_remove : (heap.remove prev h slot).free = h.index :: heap.free := by
  rcases prev with _ | p <;> rfl

theorem bytesAllocated_remove :
    (heap.remove prev h slot).bytesAllocated = heap.bytesAllocated - slot.size := by
  rcases prev with _ | p <;> rfl

theorem objectsAllocated_remove :
    (heap.remove prev h slot).objectsAllocated = heap.objectsAllocated - 1 := by
  rcases prev with _ | p <;> rfl

theorem finalizers_remove :
    (heap.remove prev h slot).finalizers = heap.finalizers.erase h := by
  rcases prev with _ | p <;> rfl

theorem size_slots_remove : (heap.remove prev h slot).slots.size = heap.slots.size := by
  rcases prev with _ | p <;> simp [remove, unlink, vacate, updateSlot]

/-- Every slot of the arena after a removal. -/
theorem getElem?_remove (i : Nat) : (heap.remove prev h slot).slots[i]? =
    if h.slot = i then
      (if prev.map Handle.slot = some i then
        heap.slots[i]?.map fun s => { s with next := slot.next }
      else heap.slots[i]?).map Slot.vacate
    else if prev.map Handle.slot = some i then
      heap.slots[i]?.map fun s => { s with next := slot.next }
    else heap.slots[i]? := by
  rcases prev with _ | p <;> simp [remove, unlink, vacate, updateSlot, Array.getElem?_modify]

/-- The slot of the removed object is vacated. -/
theorem getElem?_remove_self :
    (heap.remove prev h slot).slots[h.slot]? = heap.slots[h.slot]?.map Slot.vacate := by
  rw [getElem?_remove, if_pos rfl]
  split
  · rw [Option.map_map]
    rfl
  · rfl

/-- Away from the removed object and the one before it, no slot is touched. -/
theorem getElem?_remove_of_ne {i : Nat} (hi : h.slot ≠ i) (hprev : prev.map Handle.slot ≠ some i) :
    (heap.remove prev h slot).slots[i]? = heap.slots[i]? := by
  rw [getElem?_remove, if_neg hi, if_neg hprev]

/-- Away from the removed object, no more than a link changes. -/
theorem map_detached_remove {i : Nat} (hi : h.slot ≠ i) :
    (heap.remove prev h slot).slots[i]?.map Slot.detached = heap.slots[i]?.map Slot.detached := by
  rw [getElem?_remove, if_neg hi]
  split
  · rw [Option.map_map]
    rfl
  · rfl

/-- An object in another slot stays, with no more than its link changed. -/
theorem find?_remove_of_ne (hk : h.slot ≠ k.slot) :
    ((heap.remove prev h slot).find? k).map Slot.detached = (heap.find? k).map Slot.detached := by
  have hslots : (heap.remove prev h slot).slots[k.slot]?.map Slot.detached =
      heap.slots[k.slot]?.map Slot.detached := map_detached_remove hk
  have hfilter (o : Option Slot) : (o.filter (Slot.isLive k.generation)).map Slot.detached =
      (o.map Slot.detached).filter (Slot.isLive k.generation) :=
    (Slot.filter_isLive_map (Slot.isLive_detached k.generation) o).symm
  rw [find?, hfilter, hslots, ← hfilter, ← find?]

/-- A removed object is no longer live, whatever its handle is. -/
theorem find?_remove_of_eq (hk : h.slot = k.slot) : (heap.remove prev h slot).find? k = none := by
  rw [find?, ← hk, getElem?_remove_self]
  rcases heap.slots[h.slot]? with _ | s
  · rfl
  · simp [Slot.vacate, Slot.isLive]

/-- The live objects after a removal are those in other slots. -/
theorem contains_remove :
    (heap.remove prev h slot).contains k = (heap.contains k && decide (h.slot ≠ k.slot)) := by
  by_cases hk : h.slot = k.slot
  · rw [contains, find?_remove_of_eq hk]
    simp [hk]
  · rw [contains, ← Option.isSome_map (f := Slot.detached), find?_remove_of_ne hk,
      Option.isSome_map]
    simp [hk, contains]

theorem chargeOf_remove_of_ne (hk : h.slot ≠ k.slot) :
    (heap.remove prev h slot).chargeOf k = heap.chargeOf k := by
  have hsize (o : Option Slot) : o.map Slot.size = (o.map Slot.detached).map Slot.size := by
    rw [Option.map_map]
    rfl
  rw [chargeOf, hsize, map_detached_remove hk, ← hsize, chargeOf]

end Slots

/-! ### The list -/

section List

variable {pre post : List Handle} {h k : Handle} {slot : Slot}

/-- In a list without repeated slots the slot of one handle is not that of another. -/
theorem slot_ne_of_nodup (hnodup : ((pre ++ h :: post).map Handle.slot).Nodup)
    (hk : k ∈ pre ++ post) : h.slot ≠ k.slot := by
  have hperm : ((pre ++ h :: post).map Handle.slot).Perm ((h :: (pre ++ post)).map Handle.slot) :=
    List.perm_middle.map Handle.slot
  rw [hperm.nodup_iff, List.map_cons, List.nodup_cons] at hnodup
  intro heq
  exact hnodup.1 (heq ▸ List.mem_map_of_mem hk)

/-- The links after the removal of a handle lead through the other handles. -/
theorem linked_remove (hl : Linked heap.slots heap.head (pre ++ h :: post))
    (hnodup : ((pre ++ h :: post).map Handle.slot).Nodup)
    (hslot : heap.slots[h.slot]? = some slot) :
    Linked (heap.remove pre.getLast? h slot).slots (heap.remove pre.getLast? h slot).head
      (pre ++ post) := by
  have hnext : slot.next = post.head? := by simpa [hslot] using hl.next_eq
  have hne (k : Handle) (hk : k ∈ pre ++ post) : h.slot ≠ k.slot := slot_ne_of_nodup hnodup hk
  have hhead : (heap.remove pre.getLast? h slot).head =
      if pre = [] then post.head? else heap.head := by
    rw [head_remove, hnext]
    simp
  -- away from the last handle before the removed one, nothing is written
  have hother (k : Handle) (hk : k ∈ pre ++ post)
      (hlast : ∀ p, pre.getLast? = some p → p.slot ≠ k.slot) :
      (heap.remove pre.getLast? h slot).slots[k.slot]?.map Slot.next =
        heap.slots[k.slot]?.map Slot.next := by
    rw [getElem?_remove_of_ne (hne k hk)]
    simpa using hlast
  rw [hhead]
  refine hl.bypass (fun p hp => ?_) (fun k hk => hother k ?_ fun p hp heq => ?_)
    fun k hk => hother k (List.mem_append_right pre hk) fun p hp heq => ?_
  · have hmem : p ∈ pre := List.mem_of_getLast? hp
    obtain ⟨s, hs⟩ := hl.exists_slot (List.mem_append_left _ hmem)
    rw [getElem?_remove, if_neg (hne p (List.mem_append_left post hmem)), hp, Option.map_some,
      if_pos rfl, hs, ← hnext]
    rfl
  · exact List.mem_append_left post (List.dropLast_subset pre hk)
  · rw [← List.dropLast_append_getLast? p hp, List.append_assoc, List.singleton_append] at hnodup
    exact slot_ne_of_nodup hnodup (List.mem_append_left _ hk) heq
  · rw [← List.dropLast_append_getLast? p hp, List.append_assoc, List.singleton_append] at hnodup
    exact slot_ne_of_nodup hnodup
      (List.mem_append_right _ (List.mem_cons_of_mem h hk)) heq

/-- **Removal keeps the invariant**, and takes one handle out of the list. -/
theorem WellFormed.remove (hw : heap.WellFormed) (hhandles : heap.handles = pre ++ h :: post)
    (hslot : heap.slots[h.slot]? = some slot) :
    (heap.remove pre.getLast? h slot).WellFormed ∧
      (heap.remove pre.getLast? h slot).handles = pre ++ post := by
  have hl : Linked heap.slots heap.head (pre ++ h :: post) := hhandles ▸ hw.linked
  have hnodup : ((pre ++ h :: post).map Handle.slot).Nodup := hhandles ▸ hw.nodup
  have hlive : heap.contains h := hw.live h (by simp [hhandles])
  have hne (k : Handle) (hk : k ∈ pre ++ post) : h.slot ≠ k.slot := slot_ne_of_nodup hnodup hk
  have hlinked := linked_remove hl hnodup hslot
  have hnodup' : ((pre ++ post).map Handle.slot).Nodup :=
    hnodup.sublist (((List.Sublist.refl post).cons h).append_left pre |>.map Handle.slot)
  refine ⟨?_, handles_eq_of_linked hlinked hnodup'⟩
  refine .of_list hlinked hnodup' ?live ?listed ?free_nodup ?free_iff ?slots_le ?objects ?bytes
    ?finalizers
  case live =>
    intro k hk
    have hmem : k ∈ heap.handles := by rw [hhandles]; grind
    rw [contains_remove, hw.live k hmem, Bool.true_and, decide_eq_true_eq]
    exact hne k hk
  case listed =>
    intro k hk
    rw [contains_remove, Bool.and_eq_true, decide_eq_true_eq] at hk
    have hmem := hw.listed k hk.1
    rw [hhandles] at hmem
    grind
  case free_nodup =>
    rw [free_remove]
    exact List.nodup_cons.2 ⟨hw.not_mem_free hlive, hw.free_nodup⟩
  case free_iff =>
    intro i
    rw [free_remove, List.mem_cons]
    by_cases hi : h.slot = i.toNat
    · have heq : i = h.index := UInt32.toNat_inj.1 hi.symm
      rw [← hi, getElem?_remove_self, hslot]
      simp [heq, Slot.vacate]
    · -- the slot before may have got another link, which does not tell whether it is vacant
      have hvacant (o : Option Slot) : (∃ s, o = some s ∧ s.object = none) ↔
          (o.map Slot.detached).any fun s => s.object.isNone := by
        rcases o with _ | s <;> simp [Slot.detached]
      have hne' : i ≠ h.index := fun heq => hi (heq ▸ rfl)
      rw [hvacant, map_detached_remove hi, ← hvacant, hw.free_iff i]
      simp [hne']
  case slots_le =>
    rw [size_slots_remove]
    exact hw.slots_le
  case objects =>
    have hlength : heap.handles.length = (pre ++ post).length + 1 := by
      rw [hhandles]
      simp [Nat.add_assoc]
    rw [objectsAllocated_remove, hw.objects_eq, hlength, UInt64.ofNat_add]
    exact UInt64.add_sub_cancel _ _
  case bytes =>
    have hcharge : heap.chargeOf h = slot.size := by simp [chargeOf, hslot]
    have hsum : heap.charges heap.handles = heap.charges (pre ++ post) + slot.size.toNat := by
      rw [hhandles, charges_append, charges_append, charges_cons, hcharge]
      omega
    have hsame : (heap.remove pre.getLast? h slot).charges (pre ++ post) =
        heap.charges (pre ++ post) :=
      charges_congr fun k hk => chargeOf_remove_of_ne (hne k hk)
    rw [bytesAllocated_remove, hw.bytes_eq, hsum, hsame, UInt64.ofNat_add, UInt64.ofNat_toNat]
    exact UInt64.add_sub_cancel _ _
  case finalizers =>
    intro k hk
    rw [finalizers_remove, Std.TreeMap.mem_erase] at hk
    have hkeep := hw.finalizers_live k hk.2
    rw [contains_remove, hkeep, Bool.true_and, decide_eq_true_eq]
    intro heq
    exact hk.1 (by simp [eq_of_slot_eq hlive hkeep heq])

end List

end Heap

end MarkSweep
