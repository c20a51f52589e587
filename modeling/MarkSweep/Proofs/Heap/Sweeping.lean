import MarkSweep.Heap.Reachability
import MarkSweep.Proofs.Heap.Removal

/-!
# What a sweep does

The walk of a sweep is followed one object at a time. `Sweeping.Progress` says how far it has got:
of the objects met so far the Black ones are still in the list, White now, in front of all that is
to be met, and the others are gone. One step carries the statement on by one object
(`Progress.step`), and so the whole walk ends with it (`Progress.foldl_step`).

Each step takes out at most one object, in one go, so the heap is well formed at every step and not
only at the end.
-/

namespace MarkSweep

variable {φ : Type}

namespace Heap

/-- The object of a handle is live and Black. -/
def isBlack (heap : Heap φ) (h : Handle) : Bool :=
  (heap.find? h).any fun slot => slot.header.hasColor .black

/-- The object of a handle is not kept by a sweep. -/
def isDoomed (heap : Heap φ) (h : Handle) : Bool := !heap.isBlack h

/-- The run of the finalizer that a live object has. -/
def finalizationOf? (heap : Heap φ) (h : Handle) : Option (Finalization φ) :=
  heap.finalization? h (heap.get? h)

theorem finalization?_eq (heap : Heap φ) (h : Handle) (object : Option Object) :
    heap.finalization? h object =
      heap.finalizers[h]?.bind fun finalizer =>
        object.map fun object => ⟨finalizer, h, object⟩ := by
  rcases hf : heap.finalizers[h]? with _ | finalizer <;> rcases object with _ | object <;>
    simp [finalization?, hf]

/-- A live object has a finalizer to run exactly when one is registered. -/
theorem isSome_finalizationOf? {heap : Heap φ} {h : Handle} (hlive : heap.contains h) :
    (heap.finalizationOf? h).isSome = heap.finalizers.contains h := by
  obtain ⟨object, hget⟩ := exists_get?_of_contains hlive
  rw [finalizationOf?, finalization?_eq, hget, Std.TreeMap.contains_eq_isSome_getElem?]
  rcases heap.finalizers[h]? with _ | finalizer <;> rfl

/-- Two heaps have the same thresholds, configuration and totals. -/
structure SameSettings (heap heap' : Heap φ) : Prop where
  /-- The threshold for objects. -/
  objectsThreshold : heap'.objectsThreshold = heap.objectsThreshold
  /-- The threshold for bytes. -/
  bytesThreshold : heap'.bytesThreshold = heap.bytesThreshold
  /-- The configuration. -/
  config : heap'.config = heap.config
  /-- The totals over the life of the heap. -/
  stats : heap'.stats = heap.stats

theorem SameSettings.remove {heap heap' : Heap φ} (hs : SameSettings heap heap')
    (prev : Option Handle) (h : Handle) (slot : Slot) :
    SameSettings heap (heap'.remove prev h slot) := by
  obtain ⟨hobjects, hbytes, hconfig, hstats⟩ := hs
  rcases prev with _ | p <;> exact ⟨hobjects, hbytes, hconfig, hstats⟩

end Heap

namespace Sweeping

/-- A sweep of `heap` has met the objects `done` and still has to meet `rest`. -/
structure Progress (heap : Heap φ) (done rest : List Handle) (s : Sweeping φ) : Prop where
  /-- The invariant holds between any two steps. -/
  wellFormed : s.heap.WellFormed
  /-- Black objects stay in the list, and in order. -/
  handles_eq : s.heap.handles = done.filter heap.isBlack ++ rest
  /-- The cursor trails the objects that stay. -/
  prev_eq : s.prev = (done.filter heap.isBlack).getLast?
  /-- An object that stays turns White and may get another link. -/
  kept : ∀ k ∈ done, heap.isBlack k → s.heap.slots[k.slot]?.map Slot.detached =
    heap.slots[k.slot]?.map fun t => (t.recolor .white).detached
  /-- The slot of an object that goes is vacated. -/
  vacated : ∀ k ∈ done, heap.isDoomed k →
    s.heap.slots[k.slot]? = heap.slots[k.slot]?.map Slot.vacate
  /-- No other slot is touched. -/
  untouched : ∀ i, (∀ k ∈ done, k.slot ≠ i) → s.heap.slots[i]? = heap.slots[i]?
  /-- The arena keeps its size. -/
  size_slots : s.heap.slots.size = heap.slots.size
  /-- The slots of the objects that go are freed one by one. -/
  free_eq : s.heap.free = ((done.filter heap.isDoomed).map Handle.index).reverse ++ heap.free
  /-- Finalizers of objects that go are forgotten. -/
  finalizers_eq : ∀ k, s.heap.finalizers[k]? =
    if k ∈ done.filter heap.isDoomed then none else heap.finalizers[k]?
  /-- The objects that go are counted, their charges are added up, and so are their finalizers. -/
  stats_eq : s.stats = ⟨UInt64.ofNat (done.filter heap.isDoomed).length,
    UInt64.ofNat (heap.charges (done.filter heap.isDoomed)),
    UInt64.ofNat ((done.filter heap.isDoomed).countP heap.finalizers.contains)⟩
  /-- Finalizers run in the order of the list. -/
  finalized_eq : s.finalized.toList = (done.filter heap.isDoomed).filterMap heap.finalizationOf?
  /-- Thresholds, configuration and totals are left alone. -/
  settings : heap.SameSettings s.heap

namespace Progress

variable {heap : Heap φ} {done rest : List Handle} {h k : Handle} {s : Sweeping φ}

/-- A sweep starts with everything still to be met. -/
theorem start (hw : heap.WellFormed) :
    Progress heap [] heap.handles ⟨heap, none, SweepStats.zero, #[]⟩ where
  wellFormed := hw
  handles_eq := rfl
  prev_eq := rfl
  kept := by simp
  vacated := by simp
  untouched := by simp
  size_slots := rfl
  free_eq := rfl
  finalizers_eq := by simp
  stats_eq := rfl
  finalized_eq := rfl
  settings := ⟨rfl, rfl, rfl, rfl⟩

/-- What has not been met has not been touched. -/
theorem slots_eq_of_mem_rest (hp : Progress heap done rest s) (hw : heap.WellFormed)
    (hhandles : heap.handles = done ++ rest) (hk : k ∈ rest) :
    s.heap.slots[k.slot]? = heap.slots[k.slot]? := by
  refine hp.untouched _ fun j hj heq => ?_
  have hnodup := hw.nodup
  rw [hhandles, List.map_append, List.nodup_append] at hnodup
  exact hnodup.2.2 _ (List.mem_map_of_mem hj) _ (List.mem_map_of_mem hk) heq

/-- A sweep does not add to the charges. -/
theorem totalCharge_le (hp : Progress heap done rest s) (hw : heap.WellFormed)
    (hhandles : heap.handles = done ++ rest) : s.heap.totalCharge ≤ heap.totalCharge := by
  have hcharge : ∀ k ∈ s.heap.handles, s.heap.chargeOf k = heap.chargeOf k := by
    intro k hk
    rw [hp.handles_eq] at hk
    rcases List.mem_append.1 hk with hk | hk
    · obtain ⟨hk, hblack⟩ := List.mem_filter.1 hk
      have hsize := congrArg (Option.map Slot.size) (hp.kept k hk hblack)
      rw [Option.map_map, Option.map_map] at hsize
      exact congrArg (fun o : Option UInt64 => o.getD 0) hsize
    · rw [Heap.chargeOf, hp.slots_eq_of_mem_rest hw hhandles hk, Heap.chargeOf]
  have hsub : s.heap.handles.Sublist heap.handles := by
    rw [hp.handles_eq, hhandles]
    exact List.filter_sublist.append_right rest
  rw [Heap.totalCharge, Heap.totalCharge, Heap.charges_congr hcharge]
  exact Heap.charges_le_of_sublist hsub

section Step

variable (hp : Progress heap done (h :: rest) s) (hw : heap.WellFormed)
  (hhandles : heap.handles = done ++ h :: rest)

section
include hw hhandles

theorem contains_next : heap.contains h :=
  hw.live h (hhandles ▸ List.mem_append_right _ List.mem_cons_self)

theorem contains_done (hk : k ∈ done) : heap.contains k :=
  hw.live k (hhandles ▸ List.mem_append_left _ hk)

/-- The slot of an object is met once. -/
theorem slot_ne_done (hk : k ∈ done) : h.slot ≠ k.slot :=
  Heap.slot_ne_of_nodup (hhandles ▸ hw.nodup) (List.mem_append_left rest hk)

/-- The cursor is at an object that stays, so it is not at one that goes. -/
theorem prev_slot_ne (hk : k ∈ done) (hdoomed : heap.isDoomed k) :
    (done.filter heap.isBlack).getLast?.map Handle.slot ≠ some k.slot := by
  intro heq
  obtain ⟨p, hlast, heq⟩ := Option.map_eq_some_iff.1 heq
  obtain ⟨hmem, hblack⟩ := List.mem_filter.1 (List.mem_of_getLast? hlast)
  obtain rfl :=
    Heap.eq_of_slot_eq (contains_done hw hhandles hmem) (contains_done hw hhandles hk) heq
  simp [Heap.isDoomed, hblack] at hdoomed

end

include hp hw hhandles

/-- A Black object that is met stays. -/
theorem keep (hblack : heap.isBlack h) : Progress heap (done ++ [h]) rest (s.keep h) := by
  have hdoomed : heap.isDoomed h = false := by simp [Heap.isDoomed, hblack]
  have hsame : (done ++ [h]).filter heap.isDoomed = done.filter heap.isDoomed := by
    simp [hdoomed]
  have hself := hp.slots_eq_of_mem_rest hw hhandles (List.mem_cons_self (a := h))
  have hskeleton : (s.heap.recolor h .white).skeleton = s.heap.skeleton :=
    Heap.skeleton_eq_of_colorless_eq (Heap.colorless_recolor s.heap h .white)
  have hother (i : Nat) (hi : h.slot ≠ i) :
      (s.heap.recolor h .white).slots[i]? = s.heap.slots[i]? := by
    rw [Heap.recolor, Heap.getElem?_updateSlot, if_neg hi]
  constructor
  case wellFormed => exact hp.wellFormed.of_skeleton_eq hskeleton
  case handles_eq =>
    change (s.heap.recolor h .white).handles = _
    rw [Heap.handles_eq_of_skeleton_eq hskeleton, hp.handles_eq]
    simp [hblack]
  case prev_eq => simp [Sweeping.keep, hblack]
  case kept =>
    intro k hk hkb
    change (s.heap.recolor h .white).slots[k.slot]?.map Slot.detached = _
    rcases List.mem_append.1 hk with hk | hk
    · rw [hother _ (slot_ne_done hw hhandles hk), hp.kept k hk hkb]
    · obtain rfl := List.mem_singleton.1 hk
      rw [Heap.recolor, Heap.getElem?_updateSlot, if_pos rfl, hself, Option.map_map]
      rfl
  case vacated =>
    intro k hk hkd
    change (s.heap.recolor h .white).slots[k.slot]? = _
    rcases List.mem_append.1 hk with hk | hk
    · rw [hother _ (slot_ne_done hw hhandles hk), hp.vacated k hk hkd]
    · obtain rfl := List.mem_singleton.1 hk
      simp [hdoomed] at hkd
  case untouched =>
    intro i hi
    change (s.heap.recolor h .white).slots[i]? = _
    rw [hother i (hi h (by simp)), hp.untouched i fun k hk => hi k (List.mem_append_left [h] hk)]
  case size_slots =>
    change (s.heap.recolor h .white).slots.size = _
    rw [← hp.size_slots]
    simp [Heap.recolor, Heap.updateSlot]
  case free_eq =>
    rw [hsame]
    exact hp.free_eq
  case finalizers_eq =>
    intro k
    rw [hsame]
    exact hp.finalizers_eq k
  case stats_eq =>
    rw [hsame]
    exact hp.stats_eq
  case finalized_eq =>
    rw [hsame]
    exact hp.finalized_eq
  case settings =>
    obtain ⟨hobjects, hbytes, hconfig, hstats⟩ := hp.settings
    exact ⟨hobjects, hbytes, hconfig, hstats⟩

/-- The finalizer of an object that has not been met is still registered. -/
theorem finalization?_next {slot : Slot} (hslot : heap.slots[h.slot]? = some slot) :
    s.heap.finalization? h slot.object = heap.finalizationOf? h := by
  have hfresh : h ∉ done.filter heap.isDoomed := fun hmem =>
    slot_ne_done hw hhandles (List.mem_filter.1 hmem).1 rfl
  have hfind := Heap.find?_of_contains (contains_next hw hhandles) hslot
  have hobject : heap.get? h = slot.object := by simp [Heap.get?, hfind]
  rw [Heap.finalizationOf?, Heap.finalization?_eq, Heap.finalization?_eq, hp.finalizers_eq,
    if_neg hfresh, hobject]

/-- One more object goes, with its charge and with its finalizer if it has one. -/
theorem stats_release {slot : Slot} (hslot : heap.slots[h.slot]? = some slot) :
    (s.release h slot).stats = ⟨UInt64.ofNat (done.filter heap.isDoomed ++ [h]).length,
      UInt64.ofNat (heap.charges (done.filter heap.isDoomed ++ [h])),
      UInt64.ofNat ((done.filter heap.isDoomed ++ [h]).countP heap.finalizers.contains)⟩ := by
  have hcharge : heap.chargeOf h = slot.size := by simp [Heap.chargeOf, hslot]
  have hregistered := Heap.isSome_finalizationOf? (contains_next hw hhandles)
  have hstats : (s.release h slot).stats =
      s.stats + ⟨1, slot.size, if (heap.finalizationOf? h).isSome then 1 else 0⟩ := by
    rw [← hp.finalization?_next hw hhandles hslot]
    rfl
  rw [hstats, hp.stats_eq, hregistered, List.length_append, Heap.charges_append,
    List.countP_append, UInt64.ofNat_add, UInt64.ofNat_add, UInt64.ofNat_add]
  simp only [Heap.charges_cons, Heap.charges_nil, hcharge, List.countP_cons, List.countP_nil,
    Nat.add_zero, UInt64.ofNat_toNat]
  split <;> rfl

/-- An object that is met and is not Black goes. -/
theorem release (hblack : heap.isBlack h = false) {slot : Slot}
    (hslot : heap.slots[h.slot]? = some slot) :
    Progress heap (done ++ [h]) rest (s.release h slot) := by
  have hdoomed : heap.isDoomed h := by simp [Heap.isDoomed, hblack]
  have hself := hp.slots_eq_of_mem_rest hw hhandles (List.mem_cons_self (a := h))
  have hheap : (s.release h slot).heap =
      s.heap.remove (done.filter heap.isBlack).getLast? h slot := by
    rw [← hp.prev_eq]
    rfl
  obtain ⟨hwell, hlist⟩ := hp.wellFormed.remove hp.handles_eq (hself.trans hslot)
  have hblacks : (done ++ [h]).filter heap.isBlack = done.filter heap.isBlack := by
    simp [hblack]
  have hdooms : (done ++ [h]).filter heap.isDoomed = done.filter heap.isDoomed ++ [h] := by
    simp [hdoomed]
  constructor
  case wellFormed =>
    rw [hheap]
    exact hwell
  case handles_eq => rw [hheap, hlist, hblacks]
  case prev_eq =>
    rw [hblacks]
    exact hp.prev_eq
  case kept =>
    intro k hk hkb
    have hmem : k ∈ done := by
      rcases List.mem_append.1 hk with hk | hk
      · exact hk
      · rw [List.mem_singleton.1 hk, hblack] at hkb
        cases hkb
    rw [hheap, Heap.map_detached_remove (slot_ne_done hw hhandles hmem), hp.kept k hmem hkb]
  case vacated =>
    intro k hk hkd
    rw [hheap]
    rcases List.mem_append.1 hk with hk | hk
    · rw [Heap.getElem?_remove_of_ne (slot_ne_done hw hhandles hk)
        (prev_slot_ne hw hhandles hk hkd), hp.vacated k hk hkd]
    · obtain rfl := List.mem_singleton.1 hk
      rw [Heap.getElem?_remove_self, hself]
  case untouched =>
    intro i hi
    rw [hheap, Heap.getElem?_remove_of_ne (hi h (by simp)),
      hp.untouched i fun k hk => hi k (List.mem_append_left [h] hk)]
    -- the slot that gets another link is that of an object that has been met
    intro heq
    obtain ⟨p, hlast, heq⟩ := Option.map_eq_some_iff.1 heq
    have hmem := (List.mem_filter.1 (List.mem_of_getLast? hlast)).1
    exact hi p (List.mem_append_left [h] hmem) heq
  case size_slots => rw [hheap, Heap.size_slots_remove, hp.size_slots]
  case free_eq =>
    rw [hheap, Heap.free_remove, hp.free_eq, hdooms]
    simp
  case finalizers_eq =>
    intro k
    rw [hheap, Heap.finalizers_remove, Std.TreeMap.getElem?_erase, hp.finalizers_eq, hdooms]
    by_cases hk : h = k
    · simp [hk]
    · simp [hk, Ne.symm hk]
  case stats_eq =>
    rw [hdooms]
    exact hp.stats_release hw hhandles hslot
  case finalized_eq =>
    have hfinalized : (s.release h slot).finalized =
        s.finalized ++ (heap.finalizationOf? h).toArray := by
      rw [← hp.finalization?_next hw hhandles hslot]
      rfl
    rw [hdooms, hfinalized, List.filterMap_append, ← hp.finalized_eq]
    rcases hfin : heap.finalizationOf? h with _ | run <;> simp [hfin]
  case settings =>
    rw [hheap]
    exact hp.settings.remove _ h slot

/-- **One step** carries the sweep on by one object. -/
theorem step : Progress heap (done ++ [h]) rest (s.step h) := by
  obtain ⟨slot, -, hfind, -⟩ := Heap.exists_find?_of_contains (contains_next hw hhandles)
  have hslot := (Heap.find?_eq_some_iff.1 hfind).1
  have hself := hp.slots_eq_of_mem_rest hw hhandles (List.mem_cons_self (a := h))
  have hblack : heap.isBlack h = slot.header.hasColor .black := by simp [Heap.isBlack, hfind]
  simp only [Sweeping.step, hself, hslot]
  split
  · rename_i hcolor
    exact hp.keep hw hhandles (hblack.trans hcolor)
  · rename_i hcolor
    exact hp.release hw hhandles (hblack.trans (Bool.not_eq_true _ ▸ hcolor)) hslot

end Step

/-- A stretch of the walk. -/
theorem foldl_step (hw : heap.WellFormed) {met : List Handle}
    (hhandles : heap.handles = done ++ (met ++ rest)) (hp : Progress heap done (met ++ rest) s) :
    Progress heap (done ++ met) rest (met.foldl Sweeping.step s) := by
  induction met generalizing done s with
  | nil =>
    rw [List.append_nil]
    exact hp
  | cons h met ih =>
    have hlast := ih (by rw [hhandles, List.append_assoc]; rfl) (hp.step hw hhandles)
    rwa [List.append_assoc] at hlast

end Progress

end Sweeping

/-! ### The effect of a sweep -/

namespace Heap

variable {heap : Heap φ} {k : Handle}

/-- The sweep of a heap after it has met some objects. -/
def sweptThrough (heap : Heap φ) (met : List Handle) : Sweeping φ :=
  met.foldl Sweeping.step ⟨heap, none, SweepStats.zero, #[]⟩

theorem progress_sweptThrough (hw : heap.WellFormed) {met rest : List Handle}
    (hhandles : heap.handles = met ++ rest) :
    Sweeping.Progress heap met rest (heap.sweptThrough met) := by
  have hstart := Sweeping.Progress.start hw
  rw [hhandles] at hstart
  exact hstart.foldl_step hw hhandles

theorem exists_progress (hw : heap.WellFormed) :
    ∃ s : Sweeping φ, Sweeping.Progress heap heap.handles [] s ∧
      heap.sweep = ⟨{ s.heap with
        stats := { s.heap.stats with
          totalObjectsFreed := s.heap.stats.totalObjectsFreed + s.stats.objectsFreed
          totalBytesFreed := s.heap.stats.totalBytesFreed + s.stats.bytesFreed } },
        s.stats, s.finalized.toList⟩ :=
  ⟨_, progress_sweptThrough hw (List.append_nil _).symm, rfl⟩

/-- A sweep keeps the invariant. -/
theorem WellFormed.sweep (hw : heap.WellFormed) : heap.sweep.state.WellFormed := by
  obtain ⟨s, hp, heq⟩ := exists_progress hw
  rw [heq]
  exact hp.wellFormed.withSettings _ _ _ _

/-- **The list after a sweep** is that of the Black objects. -/
theorem handles_sweep (hw : heap.WellFormed) :
    heap.sweep.state.handles = heap.handles.filter heap.isBlack := by
  obtain ⟨s, hp, heq⟩ := exists_progress hw
  rw [heq]
  exact hp.handles_eq.trans (List.append_nil _)

theorem contains_of_isBlack (hk : heap.isBlack k) : heap.contains k := by
  obtain ⟨slot, hfind, -⟩ := (Option.any_eq_true ..).1 hk
  exact contains_of_find? hfind

theorem isBlack_iff : heap.isBlack k ↔ heap.HasColor .black k := by
  rw [isBlack, HasColor]
  rcases heap.find? k with _ | slot
  · simp
  · simp [Header.hasColor_iff]

/-- What is live after a sweep was Black before it. -/
theorem contains_sweep (hw : heap.WellFormed) : heap.sweep.state.contains k = heap.isBlack k := by
  rw [Bool.eq_iff_iff, ← hw.sweep.mem_handles_iff, handles_sweep hw, List.mem_filter,
    hw.mem_handles_iff]
  exact ⟨And.right, fun hk => ⟨contains_of_isBlack hk, hk⟩⟩

/-- **A survivor** turns White and may get another link; nothing else about it changes. -/
theorem find?_sweep (hw : heap.WellFormed) (hk : heap.isBlack k) :
    (heap.sweep.state.find? k).map Slot.detached =
      (heap.find? k).map fun t => (t.recolor .white).detached := by
  obtain ⟨s, hp, heq⟩ := exists_progress hw
  have hkept := hp.kept k (hw.listed k (contains_of_isBlack hk)) hk
  have hslots : heap.sweep.state.slots = s.heap.slots := by rw [heq]
  rw [find?, hslots, ← Slot.filter_isLive_map (Slot.isLive_detached k.generation), hkept, find?]
  exact Slot.filter_isLive_map (f := fun t => (t.recolor .white).detached) (fun _ => rfl) _

/-- What is found after a sweep was found before it, in whatever colour. -/
theorem header_of_find?_sweep (hw : heap.WellFormed) {slot : Slot}
    (hfind : heap.sweep.state.find? k = some slot) :
    ∃ old, heap.find? k = some old ∧ slot.header = old.header.setColor .white := by
  have hblack := (contains_sweep hw).symm.trans (contains_of_find? hfind)
  have hsame := find?_sweep hw hblack
  rw [hfind, Option.map_some, eq_comm, Option.map_eq_some_iff] at hsame
  obtain ⟨old, hold, heq⟩ := hsame
  exact ⟨old, hold, (congrArg Slot.header heq.symm :)⟩

/-- Survivors keep their finalizers. -/
theorem finalizers_sweep (hw : heap.WellFormed) (hk : heap.isBlack k) :
    heap.sweep.state.finalizers[k]? = heap.finalizers[k]? := by
  obtain ⟨s, hp, heq⟩ := exists_progress hw
  rw [heq]
  exact (hp.finalizers_eq k).trans (if_neg (by simp [isDoomed, hk]))

theorem config_sweep (hw : heap.WellFormed) : heap.sweep.state.config = heap.config := by
  obtain ⟨s, hp, heq⟩ := exists_progress hw
  rw [heq]
  exact hp.settings.config

/-- A sweep takes no slot. -/
theorem hasSlot_sweep (hw : heap.WellFormed) {granted : Bool} (hslot : heap.hasSlot granted) :
    heap.sweep.state.hasSlot granted := by
  obtain ⟨s, hp, heq⟩ := exists_progress hw
  rw [heq]
  simp only [hasSlot, Bool.or_eq_true, Bool.not_eq_true', List.isEmpty_eq_false_iff] at hslot ⊢
  rw [hp.size_slots, hp.free_eq]
  refine hslot.imp_left fun hfree hnil => hfree ?_
  exact (List.append_eq_nil_iff.1 hnil).2

/-! ### Its answer -/

section Stats

variable (hw : heap.WellFormed)
include hw

/-- What a sweep answers: the count of what goes, its charges, and its finalizers. -/
theorem stats_sweep :
    heap.sweep.stats = ⟨UInt64.ofNat (heap.handles.filter heap.isDoomed).length,
      UInt64.ofNat (heap.charges (heap.handles.filter heap.isDoomed)),
      UInt64.ofNat ((heap.handles.filter heap.isDoomed).countP heap.finalizers.contains)⟩ := by
  obtain ⟨s, hp, heq⟩ := exists_progress hw
  rw [heq]
  exact hp.stats_eq

/-- The arena has too few slots for the count of objects to wrap. -/
theorem toNat_objectsFreed_sweep :
    heap.sweep.stats.objectsFreed.toNat = (heap.handles.filter heap.isDoomed).length := by
  rw [stats_sweep hw]
  exact hw.toNat_ofNat (List.length_filter_le _ _)

theorem toNat_bytesFreed_sweep (hfit : heap.totalCharge < UInt64.size) :
    heap.sweep.stats.bytesFreed.toNat = heap.charges (heap.handles.filter heap.isDoomed) := by
  have hle : heap.charges (heap.handles.filter heap.isDoomed) ≤ heap.totalCharge :=
    charges_le_of_sublist List.filter_sublist
  rw [stats_sweep hw]
  exact UInt64.toNat_ofNat_of_lt' (Nat.lt_of_le_of_lt hle hfit)

theorem toNat_finalizersRun_sweep : heap.sweep.stats.finalizersRun.toNat =
    (heap.handles.filter heap.isDoomed).countP heap.finalizers.contains := by
  rw [stats_sweep hw]
  exact hw.toNat_ofNat (Nat.le_trans List.countP_le_length (List.length_filter_le _ _))

end Stats

end Heap

end MarkSweep
