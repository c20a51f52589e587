import MarkSweep.Proofs.Heap.Accounting
import MarkSweep.Proofs.Heap.Exactness

/-!
# What a sweep selects

A sweep may start from any colours. It keeps the Black objects and releases the others, White or
Gray alike, in the order of the list. `Heap.SweepsExactly` lists what that comes to for the list,
the slots, the free list, the finalizers and the answer. What is kept turns White, so that another
sweep right after it keeps nothing (`sweep_exact`).
-/

namespace MarkSweep.Heap

variable {φ : Type} {heap : Heap φ} {h k : Handle}

/-- **An exact sweep** of a heap. -/
structure SweepsExactly (heap : Heap φ) (swept : Swept φ (Heap φ)) : Prop where
  /-- The list loses what is not Black. -/
  handles_eq : swept.state.handles = heap.handles.filter fun h => heap.HasColor .black h
  /-- With it the listing of payloads does. -/
  entries_eq : swept.state.entries = heap.entries.filter fun e => heap.HasColor .black e.1
  /-- What is kept turns White and may get another link; nothing else about it changes. -/
  kept : ∀ h, heap.HasColor .black h → ∃ slot next, heap.find? h = some slot ∧
    swept.state.find? h = some { slot.recolor .white with next := next }
  /-- So every live object is White. -/
  allWhite : swept.state.AllWhite
  /-- The rest is released, in the order of the list. -/
  releases_eq : heap.sweepReleases = heap.handles.filter fun h => ¬ heap.HasColor .black h
  /-- It is what is White or Gray. -/
  mem_releases_iff : ∀ h, h ∈ heap.sweepReleases ↔ heap.HasColor .white h ∨ heap.HasColor .gray h
  /-- The finalizers of what is released run in that order. -/
  finalized_eq : swept.finalized = heap.sweepReleases.filterMap heap.finalizationOf?
  /-- They are forgotten, and no others are. -/
  finalizers_eq : ∀ h,
    swept.state.finalizers[h]? = if h ∈ heap.sweepReleases then none else heap.finalizers[h]?
  /-- A slot that is released loses its object and goes up by one generation. -/
  vacated : ∀ h ∈ heap.sweepReleases, ∃ slot, heap.slots[h.slot]? = some slot ∧
    swept.state.slots[h.slot]? = some ⟨slot.header, none, 0, slot.generation + 1, none⟩
  /-- No other slot goes up. -/
  generation_eq : ∀ i, i ∉ heap.sweepReleases.map Handle.slot →
    swept.state.generationOf i = heap.generationOf i
  /-- The free slots are these and those from before, the one released last in front. -/
  free_eq : swept.state.free = (heap.sweepReleases.map Handle.index).reverse ++ heap.free
  /-- What is released is counted. -/
  objectsFreed : swept.stats.objectsFreed.toNat = heap.sweepReleases.length
  /-- Its charges are added up, in a word. -/
  bytesFreed : swept.stats.bytesFreed = UInt64.ofNat (heap.charges heap.sweepReleases)
  /-- The sum is the true one as long as all charges together fit in a word. -/
  toNat_bytesFreed : heap.totalCharge < UInt64.size →
    swept.stats.bytesFreed.toNat = heap.charges heap.sweepReleases
  /-- The finalizers that run are counted. -/
  finalizersRun : swept.stats.finalizersRun.toNat =
    heap.sweepReleases.countP heap.finalizers.contains

/-! ### Colours -/

theorem isBlack_eq (heap : Heap φ) : heap.isBlack = fun h => decide (heap.HasColor .black h) := by
  funext h
  rw [Bool.eq_iff_iff, isBlack_iff, decide_eq_true_eq]

theorem isDoomed_eq (heap : Heap φ) :
    heap.isDoomed = fun h => decide (¬ heap.HasColor .black h) := by
  funext h
  rw [isDoomed, isBlack_eq, decide_not]

/-- An object that is not Black is White or Gray. -/
theorem not_black_iff (hdecode : heap.HeadersDecode) (hlive : heap.contains h) :
    ¬ heap.HasColor .black h ↔ heap.HasColor .white h ∨ heap.HasColor .gray h := by
  obtain ⟨slot, -, hfind, -⟩ := exists_find?_of_contains hlive
  obtain ⟨-, c, hcolor⟩ := hdecode h slot hfind
  have hc : heap.HasColor c h := ⟨slot, hfind, hcolor⟩
  have hiff (d : Color) : heap.HasColor d h ↔ d = c := ⟨fun hd => hd.unique hc, fun hd => hd ▸ hc⟩
  rw [hiff, hiff, hiff]
  rcases c with _ | _ | _ <;> simp

/-! ### Survivors -/

/-- A survivor turns White and may get another link. -/
theorem exists_find?_sweep (hw : heap.WellFormed) (hblack : heap.HasColor .black h) :
    ∃ slot next, heap.find? h = some slot ∧
      heap.sweep.state.find? h = some { slot.recolor .white with next := next } := by
  have hsweep := find?_sweep hw (isBlack_iff.2 hblack)
  obtain ⟨slot, hfind, -⟩ := hblack
  rw [hfind, Option.map_some, Option.map_eq_some_iff] at hsweep
  obtain ⟨new, hnew, hdetached⟩ := hsweep
  exact ⟨slot, new.next, hfind, hnew.trans (congrArg some (Slot.eq_of_detached_eq hdetached))⟩

/-- The payloads of survivors are listed as before. -/
theorem entries_sweep (hw : heap.WellFormed) :
    heap.sweep.state.entries = heap.entries.filter fun e => heap.isBlack e.1 := by
  have hget : ∀ k ∈ heap.handles.filter heap.isBlack,
      (heap.sweep.state.get? k).map (Prod.mk k) = (heap.get? k).map (Prod.mk k) := by
    intro k hk
    obtain ⟨slot, next, hfind, hnew⟩ :=
      exists_find?_sweep hw (isBlack_iff.1 (List.mem_filter.1 hk).2)
    rw [get?, hnew, get?, hfind]
    rfl
  rw [hw.sweep.entries_eq, hw.entries_eq, handles_sweep hw, List.filterMap_congr hget,
    List.filterMap_filter, List.filter_filterMap]
  refine List.filterMap_congr fun k _ => ?_
  rcases heap.get? k with _ | object
  · simp
  · cases hblack : heap.isBlack k <;> simp [Option.filter_some, hblack]

/-! ### Slots -/

/-- The slot of an object that is released. -/
theorem getElem?_sweep_of_released (hw : heap.WellFormed) (hh : h ∈ heap.sweepReleases) :
    ∃ slot, heap.slots[h.slot]? = some slot ∧
      heap.sweep.state.slots[h.slot]? = some slot.vacate := by
  obtain ⟨hlive, hdoomed⟩ := (mem_sweepReleases_iff hw).1 hh
  obtain ⟨slot, -, hfind, -⟩ := exists_find?_of_contains hlive
  have hslot := (find?_eq_some_iff.1 hfind).1
  obtain ⟨s, hp, heq⟩ := exists_progress hw
  refine ⟨slot, hslot, ?_⟩
  rw [heq]
  exact (hp.vacated h (hw.listed h hlive) hdoomed).trans (by rw [hslot, Option.map_some])

/-- The slots of what is released come to stand in front of the free ones, the last one first. -/
theorem free_sweep (hw : heap.WellFormed) :
    heap.sweep.state.free = (heap.sweepReleases.map Handle.index).reverse ++ heap.free := by
  obtain ⟨s, hp, heq⟩ := exists_progress hw
  rw [sweepReleases_eq hw, heq]
  exact hp.free_eq

/-! ### The whole sweep -/

theorem sweepsExactly (hi : heap.Intact) : heap.SweepsExactly heap.sweep := by
  have hw := hi.wellFormed
  have hblack := isBlack_eq heap
  have hreleases : heap.sweepReleases = heap.handles.filter heap.isDoomed := sweepReleases_eq hw
  refine ⟨?_, ?_, fun h hh => exists_find?_sweep hw hh, allWhite_sweep hw, ?_, fun h => ?_, ?_,
    finalizers_sweep_eq hw, fun h hh => getElem?_sweep_of_released hw hh, fun i hi => ?_,
    free_sweep hw, ?_, ?_, fun hfit => ?_, ?_⟩
  · rw [handles_sweep hw, hblack]
  · rw [entries_sweep hw, hblack]
  · rw [hreleases, isDoomed_eq]
  · rw [mem_sweepReleases_iff hw, isDoomed_eq, decide_eq_true_eq]
    constructor
    · rintro ⟨hlive, hh⟩
      exact (not_black_iff hi.headersDecode hlive).1 hh
    · intro hh
      have hlive : heap.contains h := hh.elim HasColor.contains HasColor.contains
      exact ⟨hlive, (not_black_iff hi.headersDecode hlive).2 hh⟩
  · rw [hreleases, finalized_sweep hw]
  · rw [generationOf_sweep hw, List.count_eq_zero_of_not_mem hi]
    exact UInt32.add_zero _
  · rw [hreleases, toNat_objectsFreed_sweep hw]
  · rw [hreleases, stats_sweep hw]
  · rw [hreleases, toNat_bytesFreed_sweep hw hfit]
  · rw [hreleases, toNat_finalizersRun_sweep hw]

/-- **Exact sweeping from any colours.** A sweep of a heap with its representation intact keeps the
Black objects and releases the others, and a second sweep releases those that the first one kept. -/
theorem sweep_exact (hi : heap.Intact) : heap.SweepsExactly heap.sweep ∧
    heap.sweep.state.sweepReleases = heap.sweep.state.handles ∧
    heap.sweep.state.sweep.state.handles = [] ∧
    heap.sweep.state.sweep.stats.objectsFreed.toNat = heap.sweep.state.handles.length := by
  have hfirst := sweepsExactly hi
  have hsecond := sweepsExactly hi.sweep
  have hnone : ∀ k ∈ heap.sweep.state.handles, ¬ heap.sweep.state.HasColor .black k := by
    intro k hk hblack
    cases hblack.unique (hfirst.allWhite k (hi.sweep.wellFormed.live k hk))
  have hall : heap.sweep.state.sweepReleases = heap.sweep.state.handles := by
    rw [hsecond.releases_eq, List.filter_eq_self]
    simpa using hnone
  refine ⟨hfirst, hall, ?_, ?_⟩
  · rw [hsecond.handles_eq, List.filter_eq_nil_iff]
    simpa using hnone
  · rw [hsecond.objectsFreed, hall]

/-- The newest object goes, and so do two neighbours further on, one White and one Gray. -/
theorem sweep_exact_mixed_colors :
    let heap := (ofConfig Config.standard : Heap Nat).run
      [.allocate (.int 1) 32 (some 10) true, .allocate (.pair (some ⟨0, 0⟩) none) 40 (some 11) true,
        .mark ⟨none, [⟨0, 0⟩], []⟩, .mark ⟨none, [⟨1, 0⟩, ⟨9, 0⟩], []⟩,
        .allocate (.int 2) 32 (some 12) true, .allocate (.int 3) 32 none true,
        .mark ⟨none, [⟨3, 0⟩], []⟩, .allocate (.int 4) 32 (some 14) true]
    heap.Intact ∧ heap.SweepsExactly heap.sweep ∧
      heap.sweep.state.handles = [⟨3, 0⟩, ⟨0, 0⟩] ∧ heap.sweep.state.free = [1, 2, 4] ∧
      heap.sweep.finalized.map Finalization.finalizer = [14, 12, 11] ∧
      heap.sweep.state.sweepReleases = [⟨3, 0⟩, ⟨0, 0⟩] := by
  intro heap
  have hi : heap.Intact := intact_run Config.standard _
  obtain ⟨hexact, hsecond, -, -⟩ := sweep_exact hi
  have hhandles : heap.sweep.state.handles = [⟨3, 0⟩, ⟨0, 0⟩] := by decide +kernel
  exact ⟨hi, hexact, hhandles, by decide +kernel, by decide +kernel, hsecond.trans hhandles⟩

end MarkSweep.Heap
