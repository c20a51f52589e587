import Mathlib.Data.List.Range
import Mathlib.Order.Bounds.Basic
import MarkSweep.Proofs.Heap.Accounting

/-!
# The arena is no larger than it had to be

Every slot of the arena is in the list or on the free list, and in one of them only
(`WellFormed.slots_perm`), so that there are as many slots as live objects and free slots together.
An allocation takes a free slot as long as there is one. So the arena grows only where every slot is
occupied, and then by one: its size goes up to the number of live objects, and never beyond it
(`Intact.size_slots_perform`). A slot that were lost would show as a difference between the two for
ever after. Over a whole history the size of the arena is therefore the largest number of objects
that were live at one time (`arena_run`).
-/

namespace MarkSweep.Heap

variable {φ : Type} {heap heap' : Heap φ} {op : Op φ}

/-! ### Occupied slots and free ones -/

namespace WellFormed

variable (hw : heap.WellFormed)
include hw

/-- **The slots of the arena** are those of the live objects and the free ones, each once. -/
theorem slots_perm : (heap.handles.map Handle.slot ++ heap.free.map UInt32.toNat).Perm
    (List.range heap.slots.size) := by
  have hfree_nodup : (heap.free.map UInt32.toNat).Nodup :=
    hw.free_nodup.map fun i j heq => UInt32.toNat_inj.1 heq
  have hdisjoint : (heap.handles.map Handle.slot).Disjoint (heap.free.map UInt32.toNat) := by
    intro i hmem hfree
    obtain ⟨h, hh, rfl⟩ := List.mem_map.1 hmem
    obtain ⟨j, hj, heq⟩ := List.mem_map.1 hfree
    obtain rfl : j = h.index := UInt32.toNat_inj.1 heq
    exact hw.not_mem_free (hw.live h hh) hj
  rw [List.perm_ext_iff_of_nodup (hw.nodup.append hfree_nodup hdisjoint) List.nodup_range]
  intro i
  rw [List.mem_append, List.mem_range]
  constructor
  · rintro (hmem | hmem)
    · obtain ⟨h, hh, rfl⟩ := List.mem_map.1 hmem
      exact hw.linked.slot_lt hh
    · obtain ⟨j, hj, rfl⟩ := List.mem_map.1 hmem
      obtain ⟨slot, hslot, -⟩ := (hw.free_iff j).1 hj
      exact (Array.getElem?_eq_some_iff.1 hslot).1
  · intro hlt
    have hslot : heap.slots[i]? = some heap.slots[i] := Array.getElem?_eq_getElem hlt
    have hindex : (UInt32.ofNat i).toNat = i :=
      UInt32.toNat_ofNat_of_lt' (Nat.lt_of_lt_of_le hlt hw.slots_le)
    rcases hobject : heap.slots[i].object with _ | object
    · refine .inr (List.mem_map.2 ⟨UInt32.ofNat i, (hw.free_iff _).2 ?_, hindex⟩)
      rw [hindex]
      exact ⟨_, hslot, hobject⟩
    · refine .inl ((hw.isSome_object_iff hslot).1 ?_)
      rw [hobject]
      rfl

/-- There are as many slots as live objects and free slots. -/
theorem size_slots : heap.slots.size = heap.handles.length + heap.free.length := by
  have hlength := hw.slots_perm.length_eq
  rwa [List.length_append, List.length_map, List.length_map, List.length_range, eq_comm] at hlength

theorem objectsAllocated_le : heap.objectsAllocated.toNat ≤ heap.slots.size := by
  rw [hw.toNat_objectsAllocated]
  exact hw.length_handles_le

/-- Where there are as many objects as slots, every slot is in the list. -/
theorem mem_map_slot_of_full (hfull : heap.objectsAllocated.toNat = heap.slots.size) {i : Nat}
    (hi : i < heap.slots.size) : i ∈ heap.handles.map Handle.slot := by
  have hfree : heap.free = [] := by
    rw [hw.toNat_objectsAllocated, hw.size_slots] at hfull
    exact List.length_eq_zero_iff.1 (by omega)
  have hmem : i ∈ heap.handles.map Handle.slot ++ heap.free.map UInt32.toNat :=
    hw.slots_perm.mem_iff.2 (List.mem_range.2 hi)
  rwa [hfree, List.map_nil, List.append_nil] at hmem

end WellFormed

/-! ### One call -/

theorem size_slots_of_colorless_eq (hc : heap'.colorless = heap.colorless) :
    heap'.slots.size = heap.slots.size := by
  have hsize (heap : Heap φ) : heap.colorless.slots.size = heap.slots.size :=
    size_slots_mapSlots _ _
  rw [← hsize, hc, hsize]

theorem size_slots_sweep (hw : heap.WellFormed) :
    heap.sweep.state.slots.size = heap.slots.size := by
  obtain ⟨s, hp, heq⟩ := exists_progress hw
  rw [heq]
  exact hp.size_slots

/-- Only where no slot is free does the arena grow to take an object in. -/
theorem size_slots_occupy (heap : Heap φ) (object : Object) (size : UInt64) :
    (heap.occupy object size).2.slots.size =
      if heap.free = [] then heap.slots.size + 1 else heap.slots.size := by
  rcases hfree : heap.free with _ | ⟨index, rest⟩ <;> simp [occupy, hfree]

namespace Intact

variable (hi : heap.Intact)
include hi

/-- **The arena grows to the number of live objects**, and no further. -/
theorem size_slots_perform (op : Op φ) : (op.perform heap).state.slots.size =
    max heap.slots.size (op.perform heap).state.objectsAllocated.toNat := by
  have hle := (hi.perform op).wellFormed.objectsAllocated_le
  have hsame (heq : (op.perform heap).state.slots.size = heap.slots.size) :
      (op.perform heap).state.slots.size =
        max heap.slots.size (op.perform heap).state.objectsAllocated.toNat := by omega
  cases hi.effect op with
  | painted state _ _ => exact hsame (size_slots_of_colorless_eq state)
  | written target old new _ state _ _ =>
    refine hsame ?_
    rw [state]
    simp [withObject, updateSlot]
  | swept painted hc hp state _ _ _ _ _ =>
    refine hsame ?_
    rw [state.slots, size_slots_sweep hp.wellFormed, size_slots_of_colorless_eq hc]
  | entered h object size finalizer granted after op_eq ho _ hperform =>
    have hissued : op.issued heap = some h := by rw [Op.issued, hperform]; rfl
    have hobjects : (op.perform heap).state.objectsAllocated.toNat = heap.handles.length + 1 := by
      rw [(hi.perform op).wellFormed.toNat_objectsAllocated, hperform,
        (hi.wellFormed.enter ho finalizer).2, List.length_cons]
    subst op_eq
    obtain ⟨-, -, heq⟩ := allocate_of_answer_eq_ok (answer_of_issued hissued)
    have hsize : ((Op.allocate object size finalizer granted).perform heap).state.slots.size =
        if heap.free = [] then heap.slots.size + 1 else heap.slots.size := by
      rw [← size_slots_occupy heap object size, Op.perform, heq]
      rfl
    have hsum := hi.wellFormed.size_slots
    rw [hobjects, hsize]
    split
    · rename_i hfree
      rw [hfree, List.length_nil] at hsum
      omega
    · rename_i hfree
      have hpos := List.length_pos_iff.2 hfree
      omega

/-- Where the arena grows, an allocation has found every slot occupied, and has added one. -/
theorem full_of_size_slots_lt (hlt : heap.slots.size < (op.perform heap).state.slots.size) :
    (op.issued heap).isSome ∧ heap.objectsAllocated.toNat = heap.slots.size ∧
      (op.perform heap).state.slots.size = heap.slots.size + 1 := by
  have hsize := hi.size_slots_perform op
  have hle := hi.wellFormed.objectsAllocated_le
  have hcomes : (op.perform heap).state.objectsAllocated.toNat ≤
      heap.objectsAllocated.toNat + (op.issued heap).toList.length := by
    obtain ⟨goes, -, hhandles⟩ := hi.exists_partition op
    have hfilter := List.length_filter_le (fun k => !goes k) heap.handles
    rw [(hi.perform op).wellFormed.toNat_objectsAllocated, hi.wellFormed.toNat_objectsAllocated,
      hhandles, List.length_append]
    omega
  rcases hissued : op.issued heap with _ | h
  · rw [hissued, Option.toList_none, List.length_nil] at hcomes
    omega
  · rw [hissued, Option.toList_some, List.length_singleton] at hcomes
    exact ⟨rfl, by omega, by omega⟩

end Intact

/-! ### Histories -/

/-- The largest number of objects that were live at one time in a history. -/
def highWater (heap : Heap φ) : List (Op φ) → Nat
  | [] => heap.objectsAllocated.toNat
  | op :: ops => max heap.objectsAllocated.toNat (highWater (op.perform heap).state ops)

/-- It is the largest of the numbers of live objects in the states on the way. -/
theorem isGreatest_highWater (heap : Heap φ) (ops : List (Op φ)) :
    IsGreatest {n | ∃ before, before <+: ops ∧ (heap.run before).objectsAllocated.toNat = n}
      (heap.highWater ops) := by
  induction ops generalizing heap with
  | nil =>
    refine ⟨⟨[], List.nil_prefix, rfl⟩, ?_⟩
    rintro n ⟨before, hbefore, rfl⟩
    rw [List.prefix_nil.1 hbefore]
    exact Nat.le_refl _
  | cons op ops ih =>
    obtain ⟨⟨reached, hreached, heq⟩, hbound⟩ := ih (op.perform heap).state
    constructor
    · rcases Nat.le_total heap.objectsAllocated.toNat
        (highWater (op.perform heap).state ops) with hle | hle
      · exact ⟨op :: reached, List.cons_prefix_cons.2 ⟨rfl, hreached⟩,
          heq.trans (Nat.max_eq_right hle).symm⟩
      · exact ⟨[], List.nil_prefix, (Nat.max_eq_left hle).symm⟩
    · rintro n ⟨before, hbefore, rfl⟩
      rcases before with _ | ⟨op', before⟩
      · exact Nat.le_max_left _ _
      · obtain ⟨rfl, hrest⟩ := List.cons_prefix_cons.1 hbefore
        exact Nat.le_trans (hbound ⟨before, hrest, rfl⟩) (Nat.le_max_right _ _)

namespace Intact

variable (hi : heap.Intact) (ops : List (Op φ))
include hi

/-- **The arena is as large as it was at the beginning**, or as the largest number of objects that
were live at one time since. -/
theorem size_slots_run :
    (heap.run ops).slots.size = max heap.slots.size (heap.highWater ops) := by
  induction ops generalizing heap with
  | nil => exact (Nat.max_eq_left hi.wellFormed.objectsAllocated_le).symm
  | cons op ops ih =>
    have hle := hi.wellFormed.objectsAllocated_le
    have hle' := (isGreatest_highWater (op.perform heap).state ops).2 ⟨[], List.nil_prefix, rfl⟩
    rw [run_nil] at hle'
    rw [run_cons, ih (hi.perform op), hi.size_slots_perform, highWater]
    omega

/-- A handle that is given out stays within the arena. -/
theorem slot_lt_of_mem_issued {h : Handle} (hh : h ∈ heap.issued ops) :
    h.slot < (heap.run ops).slots.size := by
  obtain ⟨before, op, rest, rfl, hissued⟩ := mem_ledger_iff.1 hh
  have hi' := (hi.run before).perform op
  obtain ⟨object, size, finalizer, granted, -, -, -, hholds⟩ :=
    (hi.run before).exists_of_issued (Option.mem_toList.1 hissued)
  have hlt := hi'.wellFormed.linked.slot_lt (hi'.wellFormed.listed h hholds.contains)
  rw [run_append, run_cons, hi'.size_slots_run]
  omega

end Intact

/-- **The arena of a history** has no slot too many. -/
structure ArenaTight (start : Heap φ) (ops : List (Op φ)) : Prop where
  /-- There are as many slots as there were objects live at one time. -/
  size_eq : (start.run ops).slots.size = start.highWater ops
  /-- That is the largest number of live objects in any state so far. -/
  isGreatest : IsGreatest
    {n | ∃ before, before <+: ops ∧ (start.run before).objectsAllocated.toNat = n}
    (start.highWater ops)
  /-- In every state the live objects are those in the list, so that the same is the largest number
  of handles in it. -/
  isGreatest_handles : IsGreatest
    {n | ∃ before, before <+: ops ∧ (start.run before).handles.length = n} (start.highWater ops)
  /-- The arena grows in allocations only, where every slot is occupied and in the list, and by
  one. -/
  grows_full : ∀ before op rest, ops = before ++ op :: rest →
    (start.run before).slots.size < (op.perform (start.run before)).state.slots.size →
      (∃ object size finalizer granted h, op = .allocate object size finalizer granted ∧
        ((start.run before).allocate object size finalizer granted).answer = .ok h) ∧
      (∀ (i : Nat) (slot : Slot), (start.run before).slots[i]? = some slot →
        slot.object.isSome) ∧
      (∀ i < (start.run before).slots.size, i ∈ (start.run before).handles.map Handle.slot) ∧
      (op.perform (start.run before)).state.slots.size = (start.run before).slots.size + 1
  /-- The handles that were given out are for these slots. -/
  issued_lt : ∀ h ∈ start.issued ops, h.slot < start.highWater ops

/-- **No slot is lost.** In every state that calls of a new heap lead to the arena has as many slots
as there were objects live at one time. -/
theorem arena_run (config : Config) (ops : List (Op φ)) :
    (ofConfig config : Heap φ).ArenaTight ops := by
  have hi : (ofConfig config : Heap φ).Intact := .ofConfig config
  have hsize : ((ofConfig config : Heap φ).run ops).slots.size =
      (ofConfig config : Heap φ).highWater ops := by
    rw [hi.size_slots_run]
    exact Nat.max_eq_right (Nat.zero_le _)
  constructor
  case size_eq => exact hsize
  case isGreatest => exact isGreatest_highWater _ ops
  case isGreatest_handles =>
    have hcount (before : List (Op φ)) := (hi.run before).wellFormed.toNat_objectsAllocated
    simpa only [hcount] using isGreatest_highWater (ofConfig config : Heap φ) ops
  case grows_full =>
    intro before op rest _ hlt
    have hi' := hi.run before
    obtain ⟨hissued, hfull, hgrown⟩ := hi'.full_of_size_slots_lt hlt
    obtain ⟨h, hissued⟩ := Option.isSome_iff_exists.1 hissued
    obtain ⟨object, size, finalizer, granted, rfl, -⟩ := hi'.exists_of_issued hissued
    have hlisted (i : Nat) (hlt : i < ((ofConfig config).run before).slots.size) :=
      hi'.wellFormed.mem_map_slot_of_full hfull hlt
    refine ⟨⟨object, size, finalizer, granted, h, rfl, answer_of_issued hissued⟩,
      fun i slot hslot => ?_, hlisted, hgrown⟩
    exact (hi'.wellFormed.isSome_object_iff hslot).2
      (hlisted i (Array.getElem?_eq_some_iff.1 hslot).1)
  case issued_lt => exact fun h hh => hsize ▸ hi.slot_lt_of_mem_issued ops hh

end MarkSweep.Heap
