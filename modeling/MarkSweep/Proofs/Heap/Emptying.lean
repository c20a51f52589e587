import MarkSweep.Heap.Walk
import MarkSweep.Proofs.Heap.Arena
import MarkSweep.Proofs.Heap.Conservation
import MarkSweep.Proofs.Heap.Finalization
import MarkSweep.Proofs.Heap.Selection

/-!
# The release of all objects empties the heap

All objects are released in two passes over the list. The first one turns them White and the second
one is a sweep, which spares Black objects only; the colours that there were before, whether a
marking has left them or not, have no part in it (`Intact.paint`). Neither pass changes a link
before it has followed it, so that both meet the list that there was (`WellFormed.follows_whiten`,
`WellFormed.follows_sweep`).

Since no object is Black after the first pass, the second one releases every object
(`sweepReleases_whiten`). What it answers is therefore what the heap counts, and a heap without
objects has all its slots on the free list (`WellFormed.vacant`).
-/

namespace MarkSweep.Heap

variable {φ : Type} {heap : Heap φ}

/-! ### Any colours -/

/-- The heap with its slots in other colours. -/
def paint (heap : Heap φ) (colors : Nat → Color) : Heap φ :=
  { heap with slots := heap.slots.mapIdx fun i slot => slot.recolor (colors i) }

theorem colorless_paint (heap : Heap φ) (colors : Nat → Color) :
    (heap.paint colors).colorless = heap.colorless := by
  rw [colorless, mapSlots, paint, colorless, mapSlots]
  refine congrArg (fun slots => { heap with slots }) (Array.ext_getElem? fun i => ?_)
  rw [Array.getElem?_map, Array.getElem?_mapIdx, Array.getElem?_map, Option.map_map]
  exact congrArg (Option.map · _) (funext fun slot => Slot.recolor_recolor .white _ slot)

/-- The representation does not depend on colours. -/
theorem Intact.paint (hi : heap.Intact) (colors : Nat → Color) : (heap.paint colors).Intact where
  wellFormed := hi.wellFormed.of_skeleton_eq
    (skeleton_eq_of_colorless_eq (colorless_paint heap colors))
  headersDecode := by
    intro h slot hfind
    have hslots : (heap.paint colors).find? h =
        (heap.find? h).map (Slot.recolor (colors h.slot)) := by
      rw [find?, Heap.paint, Array.getElem?_mapIdx, find?]
      exact Slot.filter_isLive_map (Slot.isLive_recolor h.generation _) _
    rw [hslots] at hfind
    obtain ⟨old, hold, rfl⟩ := Option.map_eq_some_iff.1 hfind
    exact (hi.headersDecode h old hold).setColor (colors h.slot)

/-! ### The two passes -/

theorem getElem?_foldl_recolor {i : Nat} {met : List Handle} (hi : ∀ k ∈ met, k.slot ≠ i)
    (heap : Heap φ) :
    (met.foldl (fun heap k => heap.recolor k .white) heap).slots[i]? = heap.slots[i]? := by
  refine List.foldlRecOn (motive := fun after : Heap φ => after.slots[i]? = heap.slots[i]?) met _
    rfl fun after heq k hk => ?_
  rw [recolor, getElem?_updateSlot, if_neg (hi k hk), heq]

namespace WellFormed

variable (hw : heap.WellFormed)
include hw

/-- **The first pass** meets every object, and ends. -/
theorem follows_whiten : Follows Heap.slots (fun heap h => heap.recolor h .white) heap.head heap
    heap.handles heap.whiten := by
  refine hw.linked.follows fun met h rest hhandles => getElem?_foldl_recolor (fun k hk heq => ?_) _
  have hnodup := hw.nodup
  rw [hhandles] at hnodup
  exact slot_ne_of_nodup hnodup (List.mem_append_left rest hk) heq.symm

/-- **A sweep** meets every object, and ends. -/
theorem follows_sweep : Follows (fun s : Sweeping φ => s.heap.slots) Sweeping.step heap.head
    ⟨heap, none, SweepStats.zero, #[]⟩ heap.handles (heap.sweptThrough heap.handles) :=
  hw.linked.follows fun _ _ _ hhandles =>
    (progress_sweptThrough hw hhandles).slots_eq_of_mem_rest hw hhandles List.mem_cons_self

theorem filter_isDoomed_whiten :
    heap.whiten.handles.filter heap.whiten.isDoomed = heap.handles := by
  rw [handles_whiten, List.filter_eq_self]
  exact fun h hh => hw.isDoomed_whiten hh

/-- **The second pass** releases every object. -/
theorem sweepReleases_whiten : heap.whiten.sweepReleases = heap.handles := by
  rw [sweepReleases_eq hw.whiten, hw.filter_isDoomed_whiten]

/-! ### Its answer -/

/-- Every finalizer that has not run is that of one live object. -/
theorem countP_finalizers :
    heap.handles.countP heap.finalizers.contains = heap.finalizers.size := by
  rw [List.countP_eq_length_filter, ← Std.TreeMap.length_keys]
  refine List.Perm.length_eq ((List.perm_ext_iff_of_nodup ?_ ?_).2 fun h => ?_)
  · exact hw.handles_nodup.filter _
  · exact Std.TreeMap.nodup_keys
  · rw [List.mem_filter, Std.TreeMap.mem_keys, Std.TreeMap.mem_iff_contains]
    exact ⟨And.right, fun hmem => ⟨hw.listed h (hw.finalizers_live h hmem), hmem⟩⟩

/-- It answers what the heap counted. -/
theorem stats_releaseAll : heap.releaseAll.stats =
    ⟨heap.objectsAllocated, heap.bytesAllocated, UInt64.ofNat heap.finalizers.size⟩ := by
  have hskeleton := skeleton_eq_of_colorless_eq (colorless_whiten heap)
  have hfinalizers : heap.whiten.finalizers = heap.finalizers :=
    (congrArg Heap.finalizers (colorless_whiten heap) :)
  rw [releaseAll, stats_sweep hw.whiten, hw.filter_isDoomed_whiten, hfinalizers,
    charges_eq_of_skeleton_eq hskeleton, hw.countP_finalizers, hw.objects_eq, hw.bytes_eq]

theorem size_finalizers_le : heap.finalizers.size ≤ heap.handles.length := by
  rw [← hw.countP_finalizers]
  exact List.countP_le_length

end WellFormed

/-! ### Nothing is left -/

/-- **A heap without objects**, all of whose slots are free. -/
structure Vacant (heap : Heap φ) : Prop where
  /-- There is no list. -/
  head_eq : heap.head = none
  /-- Nothing is counted. -/
  objectsAllocated_eq : heap.objectsAllocated = 0
  /-- Nothing is charged for. -/
  bytesAllocated_eq : heap.bytesAllocated = 0
  /-- No finalizer is left to run. -/
  isEmpty_finalizers : heap.finalizers.isEmpty
  /-- The free list holds every slot of the arena, once. -/
  free_perm : (heap.free.map UInt32.toNat).Perm (List.range heap.slots.size)
  /-- No slot has a payload. -/
  object_eq : ∀ (i : Nat) (slot : Slot), heap.slots[i]? = some slot → slot.object = none

theorem Vacant.isEmpty (hv : heap.Vacant) : heap.isEmpty := by
  rw [Heap.isEmpty, hv.head_eq, Option.isNone_none]

theorem WellFormed.vacant (hw : heap.WellFormed) (hnone : heap.handles = []) : heap.Vacant where
  head_eq := by
    have hlinked := hw.linked.cursor_eq
    rwa [hnone] at hlinked
  objectsAllocated_eq := by
    rw [hw.objects_eq, hnone]
    rfl
  bytesAllocated_eq := by
    rw [hw.bytes_eq, hnone]
    rfl
  isEmpty_finalizers := hw.isEmpty_finalizers hnone
  free_perm := by
    have hperm := hw.slots_perm
    rwa [hnone] at hperm
  object_eq := by
    intro i slot hslot
    have hoccupied := hw.isSome_object_iff hslot
    rw [hnone] at hoccupied
    simpa using hoccupied

/-! ### All together -/

/-- **To release all objects empties a heap.** -/
structure ReleasesAll (heap : Heap φ) : Prop where
  /-- The pass that turns the objects White meets each of them, and ends. -/
  whitens : Follows Heap.slots (fun heap h => heap.recolor h .white) heap.head heap heap.handles
    heap.whiten
  /-- Every header decodes then. -/
  headersDecode : heap.whiten.HeadersDecode
  /-- The sweep meets each of the objects, too, and ends. -/
  sweeps : Follows (fun s : Sweeping φ => s.heap.slots) Sweeping.step heap.whiten.head
    ⟨heap.whiten, none, SweepStats.zero, #[]⟩ heap.handles
    (heap.whiten.sweptThrough heap.handles)
  /-- None of its steps goes wrong, if the charges fit in a word. -/
  sweepsSafely : heap.totalCharge < UInt64.size → heap.whiten.SweepsSafely
  /-- Every object is released, in the order of the list. -/
  released_eq : Op.releaseAll.released heap = heap.handles
  /-- So what is released is what was live. -/
  mem_released_iff : ∀ h, h ∈ Op.releaseAll.released heap ↔ heap.contains h
  /-- Every finalizer runs, in the same order. -/
  finalized_eq : heap.releaseAll.finalized = heap.handles.filterMap heap.finalizationOf?
  /-- The answer is what the heap counted: its objects, their bytes, and its finalizers. -/
  stats_eq : heap.releaseAll.stats =
    ⟨heap.objectsAllocated, heap.bytesAllocated, UInt64.ofNat heap.finalizers.size⟩
  /-- The objects are those that were live. -/
  objectsFreed : heap.releaseAll.stats.objectsFreed.toNat = heap.handles.length
  /-- The bytes are those that were charged for them. -/
  bytesFreed : heap.totalCharge < UInt64.size →
    heap.releaseAll.stats.bytesFreed.toNat = heap.totalCharge
  /-- The finalizers are those that had not run. -/
  finalizersRun : heap.releaseAll.stats.finalizersRun.toNat = heap.finalizers.size
  /-- No object is left. -/
  vacant : heap.releaseAll.state.Vacant
  /-- The arena stays as it is. -/
  size_slots : heap.releaseAll.state.slots.size = heap.slots.size

/-- **From any colours**, to release all objects empties a heap with its representation intact. -/
theorem Intact.releasesAll (hi : heap.Intact) : heap.ReleasesAll := by
  have hw := hi.wellFormed
  have hcolorless := colorless_whiten heap
  have hwhite : heap.whiten.Intact := ⟨hw.whiten, hi.headersDecode.whiten⟩
  have hstats := hw.stats_releaseAll
  have hreleased : Op.releaseAll.released heap = heap.handles := hw.sweepReleases_whiten
  constructor
  case whitens => exact hw.follows_whiten
  case headersDecode => exact hwhite.headersDecode
  case sweeps =>
    have hfollows := hw.whiten.follows_sweep
    rwa [handles_whiten] at hfollows
  case sweepsSafely =>
    intro hfit
    refine hwhite.sweepsSafely ?_
    rwa [totalCharge, handles_whiten,
      charges_eq_of_skeleton_eq (skeleton_eq_of_colorless_eq hcolorless)]
  case released_eq => exact hreleased
  case mem_released_iff =>
    intro h
    rw [hreleased, hw.mem_handles_iff]
  case finalized_eq =>
    have hruns := hi.finalized_perform .releaseAll
    rw [hreleased] at hruns
    exact (Event.finalizations_map_finalized _).symm.trans hruns
  case stats_eq => exact hstats
  case objectsFreed => rw [hstats, hw.toNat_objectsAllocated]
  case bytesFreed =>
    intro hfit
    rw [hstats, hw.toNat_bytesAllocated hfit]
  case finalizersRun =>
    rw [hstats]
    exact hw.toNat_ofNat hw.size_finalizers_le
  case vacant => exact hi.releaseAll.wellFormed.vacant (handles_releaseAll hw)
  case size_slots =>
    rw [Heap.releaseAll, size_slots_sweep hw.whiten, size_slots_of_colorless_eq hcolorless]

/-- A Black object and a Gray one, which a marking that was interrupted has left, are released with
the White one. -/
example :
    let heap := (ofConfig Config.standard : Heap Unit).run
      [.allocate (.int 7) 32 (some ()) true, .allocate (.pair (some ⟨0, 0⟩) none) 40 none true,
        .allocate (.int 8) 32 none true, .mark ⟨some ⟨0, 0⟩, [], []⟩,
        .mark ⟨some ⟨1, 0⟩, [⟨5, 0⟩], []⟩]
    heap.colorOf ⟨0, 0⟩ = .ok .black ∧ heap.colorOf ⟨1, 0⟩ = .ok .gray ∧
      heap.releaseAll.stats = ⟨3, 104, 1⟩ ∧ heap.releaseAll.state.free = [0, 1, 2] := by
  decide +kernel

/-! ### The totals -/

/-- What was released and what is live is, by number and by bytes, no more than what was put in. So
the release of all objects does not take the totals beyond a word, if what was put in fits in
one. -/
theorem totals_add_live_le (config : Config) (ops : List (Op φ)) :
    let start : Heap φ := ofConfig config
    (start.run ops).stats.totalObjectsFreed.toNat + (start.run ops).handles.length ≤
        (start.issued ops).length ∧
      (start.run ops).stats.totalBytesFreed.toNat + (start.run ops).totalCharge ≤
        bytesOf (start.charged ops) := by
  intro start
  have hi : start.Intact := .ofConfig config
  have hlength := hi.length_run ops
  have hcharge := hi.totalCharge_run ops
  obtain ⟨hobjects, hbytes, -⟩ := hi.totals_run ops
  have hstart : start.handles.length = 0 ∧ start.totalCharge = 0 := ⟨rfl, rfl⟩
  have hword (n : Nat) : (0 + UInt64.ofNat n).toNat ≤ n := by
    rw [UInt64.zero_add, UInt64.toNat_ofNat']
    exact Nat.mod_le n _
  have hreleased := hword (start.returned ops).length
  have hgiven := hword (bytesOf (start.returned ops))
  rw [hobjects, hbytes]
  constructor
  · refine Nat.le_trans (Nat.add_le_add_right hreleased _) ?_
    omega
  · refine Nat.le_trans (Nat.add_le_add_right hgiven _) ?_
    omega

end MarkSweep.Heap
