import MarkSweep.Heap.History
import MarkSweep.Proofs.Heap.Mutation
import MarkSweep.Proofs.Heap.Occupation
import MarkSweep.Proofs.Heap.Sweeping
import MarkSweep.Proofs.Heap.Tricolor

/-!
# The representation invariant in every state

Every call of every operation keeps the representation invariant, and it keeps headers decodable,
without which a marking would end in a fault of another sort than a stale handle. `Heap.Intact`
is both together. `Op.perform` goes through the operations one by one (`Intact.perform`), whether
they succeed, refuse or end in a fault, and `intact_run` follows for every history.

What the walks over the list may rely on is drawn from it in the second part. `Heap.SweepsSafely`
is about the moments in the middle of a sweep: the slot that comes next is there and occupied, the
survivor that is written to is live, and neither counter is taken below zero.
-/

namespace MarkSweep.Heap

variable {φ : Type} {heap heap' : Heap φ}

/-! ### Headers -/

namespace HeadersDecode

theorem ofConfig (config : Config) : (Heap.ofConfig config : Heap φ).HeadersDecode := by
  intro h slot hfind
  simp [find?, Heap.ofConfig] at hfind

variable (hd : heap.HeadersDecode)
include hd

theorem recolor (h : Handle) (c : Color) : (heap.recolor h c).HeadersDecode := by
  intro k slot hfind
  rw [find?_recolor] at hfind
  split at hfind
  · obtain ⟨old, hold, rfl⟩ := Option.map_eq_some_iff.1 hfind
    exact (hd k old hold).setColor c
  · exact hd k slot hfind

theorem withObject {h : Handle} {old new : Object} (hget : heap.get? h = some old) :
    (heap.withObject h new).HeadersDecode := by
  intro k slot hfind
  rw [find?_withObject hget] at hfind
  split at hfind
  · obtain ⟨slot, hslot, rfl⟩ := Option.map_eq_some_iff.1 hfind
    exact hd k slot hslot
  · exact hd k slot hfind

theorem enter {object : Object} {size : UInt64} {h : Handle} {after : Heap φ}
    (ho : heap.Occupied object size h after) (finalizer : Option φ) :
    (after.enter h size finalizer).HeadersDecode := by
  intro k slot hfind
  rcases ho.find?_cases hfind with ⟨-, rfl⟩ | hold
  · exact Header.decodes_make _ _
  · exact hd k slot hold

theorem sweep (hw : heap.WellFormed) : heap.sweep.state.HeadersDecode := by
  intro k slot hfind
  obtain ⟨old, hold, hheader⟩ := header_of_find?_sweep hw hfind
  rw [hheader]
  exact (hd k old hold).setColor .white

end HeadersDecode

/-! ### All White -/

theorem colorless_whiten (heap : Heap φ) : heap.whiten.colorless = heap.colorless :=
  List.foldlRecOn (motive := fun after => after.colorless = heap.colorless) heap.handles _ rfl
    fun after heq h _ => (colorless_recolor after h .white).trans heq

theorem HeadersDecode.whiten (hd : heap.HeadersDecode) : heap.whiten.HeadersDecode :=
  List.foldlRecOn heap.handles _ hd fun _ hd h _ => hd.recolor h .white

theorem WellFormed.whiten (hw : heap.WellFormed) : heap.whiten.WellFormed :=
  hw.of_skeleton_eq (skeleton_eq_of_colorless_eq (colorless_whiten heap))

/-! ### What every call keeps -/

/-- The representation invariant, and headers that decode. -/
structure Intact (heap : Heap φ) : Prop where
  wellFormed : heap.WellFormed
  headersDecode : heap.HeadersDecode

/-- A full collection ends with the fault of its marking, or else it sweeps. -/
theorem collect_cases (heap : Heap φ) (roots : Roots) :
    (∃ fault, (heap.mark roots).answer = .error fault ∧
      (heap.collect roots).answer = .error fault ∧
      (heap.collect roots).state = (heap.mark roots).state) ∨
    ∃ reached, (heap.mark roots).answer = .ok reached ∧
      (heap.collect roots).answer = .ok ⟨(heap.mark roots).state.sweep.stats, reached⟩ ∧
      (heap.collect roots).state =
        (heap.mark roots).state.sweep.state.adjustThresholds.countCollection := by
  rcases hanswer : (heap.mark roots).answer with fault | reached
  · exact .inl ⟨fault, rfl, by simp [collect, hanswer], by simp [collect, hanswer]⟩
  · exact .inr ⟨reached, rfl, by simp [collect, hanswer], by simp [collect, hanswer]⟩

namespace Intact

theorem ofConfig (config : Config) : (Heap.ofConfig config : Heap φ).Intact :=
  ⟨wellFormed_ofConfig config, .ofConfig config⟩

variable (hi : heap.Intact)
include hi

theorem allocate (object : Object) (size : UInt64) (finalizer : Option φ) (granted : Bool) :
    (heap.allocate object size finalizer granted).state.Intact := by
  obtain ⟨hw, hd⟩ := hi
  rcases allocate_cases hw object size finalizer granted with
    ⟨r, -, -, heq⟩ | ⟨-, heq⟩ | ⟨-, h, after, ho, heq⟩
  · rw [heq]
    exact ⟨hw, hd⟩
  · rw [heq]
    exact ⟨hw, hd⟩
  · rw [heq]
    exact ⟨(hw.enter ho finalizer).1, hd.enter ho finalizer⟩

theorem edit (target : Handle) (change : Object → Option Object) :
    (heap.edit target change).state.Intact := by
  rcases edit_cases heap target change with ⟨-, heq⟩ | ⟨old, -, -, heq⟩ | ⟨old, new, hget, -, heq⟩
  · rwa [heq]
  · rwa [heq]
  · rw [heq]
    exact ⟨hi.wellFormed.of_skeleton_eq (skeleton_withObject hget),
      hi.headersDecode.withObject hget⟩

theorem store (target : Handle) (field : RefField) (ref : Option Handle) :
    (heap.store target field ref).state.Intact := by
  rcases store_cases heap target field ref with ⟨r, -, -, heq⟩ | ⟨-, heq⟩
  · rwa [heq]
  · rw [heq]
    exact hi.edit target _

theorem mark (roots : Roots) : (heap.mark roots).state.Intact := by
  obtain ⟨hw, hd⟩ := hi
  exact ⟨hw.of_skeleton_eq (skeleton_eq_of_colorless_eq (colorless_mark hd roots)), hd.mark roots⟩

/-- Thresholds and totals do not matter. -/
theorem adjusted : heap.adjustThresholds.countCollection.Intact :=
  ⟨hi.wellFormed.withSettings heap.adjustThresholds.objectsThreshold
    heap.adjustThresholds.bytesThreshold heap.config heap.countCollection.stats, hi.headersDecode⟩

theorem sweep : heap.sweep.state.Intact :=
  ⟨hi.wellFormed.sweep, hi.headersDecode.sweep hi.wellFormed⟩

theorem collect (roots : Roots) : (heap.collect roots).state.Intact := by
  have hmarked := hi.mark roots
  rcases collect_cases heap roots with ⟨fault, -, -, heq⟩ | ⟨reached, -, -, heq⟩
  · rwa [heq]
  · rw [heq]
    exact hmarked.sweep.adjusted

theorem releaseAll : heap.releaseAll.state.Intact :=
  sweep ⟨hi.wellFormed.whiten, hi.headersDecode.whiten⟩

/-- **One call** keeps the invariant, whatever it comes to. -/
theorem perform (op : Op φ) : (op.perform heap).state.Intact := by
  rcases op with ⟨object, size, finalizer, granted⟩ | ⟨target, change⟩ | ⟨target, field, ref⟩ |
    roots | _ | roots | _
  · exact hi.allocate object size finalizer granted
  · exact hi.edit target change
  · exact hi.store target field ref
  · exact hi.mark roots
  · exact hi.sweep
  · exact hi.collect roots
  · exact hi.releaseAll

end Intact

/-- **Every history** keeps the invariant. -/
theorem intact_run (config : Config) (ops : List (Op φ)) : ((ofConfig config).run ops).Intact :=
  run_induction (fun _ op hi => hi.perform op) (.ofConfig config) ops

/-! ### Walks over the list -/

/-- **No step of a sweep goes wrong.** When some objects have been met and `h` comes next, its slot
is occupied, has a header that decodes and links to what comes after it, the survivor met last is
live, and the counters are no less than what a release takes from them. -/
def SweepsSafely (heap : Heap φ) : Prop :=
  ∀ met h rest, heap.handles = met ++ h :: rest →
    (∀ p ∈ (heap.sweptThrough met).prev, (heap.sweptThrough met).heap.contains p) ∧
    ∃ slot, (heap.sweptThrough met).heap.find? h = some slot ∧ slot.header.Decodes ∧
      slot.next = rest.head? ∧ slot.size ≤ (heap.sweptThrough met).heap.bytesAllocated ∧
      1 ≤ (heap.sweptThrough met).heap.objectsAllocated

theorem Intact.sweepsSafely (hi : heap.Intact) (hfit : heap.totalCharge < UInt64.size) :
    heap.SweepsSafely := by
  intro met h rest hhandles
  have hp := progress_sweptThrough hi.wellFormed hhandles
  have hle := hp.totalCharge_le hi.wellFormed hhandles
  have hsame := hp.slots_eq_of_mem_rest hi.wellFormed hhandles (List.mem_cons_self (a := h))
  generalize heap.sweptThrough met = s at hp hle hsame ⊢
  have hlist := hp.handles_eq
  have hmem : h ∈ s.heap.handles := by simp [hlist]
  obtain ⟨slot, -, hfind, -⟩ := exists_find?_of_contains (hp.wellFormed.live h hmem)
  obtain ⟨hslot, hgen, hsome⟩ := find?_eq_some_iff.1 hfind
  refine ⟨?_, slot, hfind, ?_, ?_, ?_, ?_⟩
  · intro p hprev
    rw [hp.prev_eq] at hprev
    refine hp.wellFormed.live p ?_
    rw [hlist]
    exact List.mem_append_left _ (List.mem_of_getLast? hprev)
  · exact hi.headersDecode h slot (find?_eq_some_iff.2 ⟨hsame ▸ hslot, hgen, hsome⟩)
  · have hlinked := hp.wellFormed.linked
    rw [hlist] at hlinked
    simpa [hslot] using hlinked.next_eq
  · have hcharge : s.heap.chargeOf h = slot.size := by simp [chargeOf, hslot]
    rw [UInt64.le_iff_toNat_le, hp.wellFormed.toNat_bytesAllocated (Nat.lt_of_le_of_lt hle hfit),
      ← hcharge]
    exact chargeOf_le_charges hmem
  · have hpos : 0 < s.heap.handles.length := List.length_pos_of_mem hmem
    rw [UInt64.le_iff_toNat_le, hp.wellFormed.toNat_objectsAllocated]
    exact hpos

/-- A walk that reads payloads gets through the whole list. -/
theorem map_fst_entriesFrom {slots : Array Slot} {cursor : Option Handle} {l : List Handle}
    (hl : Linked slots cursor l)
    (hoccupied : ∀ h ∈ l, ∀ slot, slots[h.slot]? = some slot → slot.object.isSome) {bound : Nat}
    (hbound : l.length ≤ bound) : (entriesFrom slots bound cursor).map Prod.fst = l := by
  induction hl generalizing bound with
  | nil => cases bound <;> rfl
  | @cons h slot rest slot_eq _ ih =>
    obtain ⟨object, hobject⟩ :=
      Option.isSome_iff_exists.1 (hoccupied h List.mem_cons_self slot slot_eq)
    rcases bound with _ | bound
    · simp at hbound
    · rw [entriesFrom, slot_eq]
      simp only [hobject, List.map_cons]
      rw [ih (fun k hk => hoccupied k (List.mem_cons_of_mem h hk)) (by simpa using hbound)]

theorem WellFormed.isSome_object (hw : heap.WellFormed) {h : Handle} (hh : h ∈ heap.handles)
    {slot : Slot} (hslot : heap.slots[h.slot]? = some slot) : slot.object.isSome :=
  (find?_eq_some_iff.1 (find?_of_contains (hw.live h hh) hslot)).2.2

theorem WellFormed.map_fst_entries (hw : heap.WellFormed) :
    heap.entries.map Prod.fst = heap.handles :=
  map_fst_entriesFrom hw.linked (fun _ hh _ hslot => hw.isSome_object hh hslot)
    hw.length_handles_le

/-- The same walk finds the payload of every object. -/
theorem entriesFrom_eq_of_linked {slots : Array Slot} {cursor : Option Handle} {l : List Handle}
    (hl : Linked slots cursor l)
    (hoccupied : ∀ h ∈ l, ∀ slot, slots[h.slot]? = some slot → slot.object.isSome) {bound : Nat}
    (hbound : l.length ≤ bound) : entriesFrom slots bound cursor =
      l.filterMap fun h => (slots[h.slot]?.bind Slot.object).map (Prod.mk h) := by
  induction hl generalizing bound with
  | nil => cases bound <;> rfl
  | @cons h slot rest slot_eq _ ih =>
    obtain ⟨object, hobject⟩ :=
      Option.isSome_iff_exists.1 (hoccupied h List.mem_cons_self slot slot_eq)
    rcases bound with _ | bound
    · simp at hbound
    · rw [entriesFrom, slot_eq]
      simp only [hobject]
      rw [ih (fun k hk => hoccupied k (List.mem_cons_of_mem h hk)) (by simpa using hbound)]
      simp [slot_eq, hobject]

theorem WellFormed.entries_eq (hw : heap.WellFormed) :
    heap.entries = heap.handles.filterMap fun h => (heap.get? h).map (Prod.mk h) := by
  rw [entries, entriesFrom_eq_of_linked hw.linked
    (fun _ hh _ hslot => hw.isSome_object hh hslot) hw.length_handles_le]
  refine List.filterMap_congr fun h hh => ?_
  obtain ⟨slot, object, hfind, hobject⟩ := exists_find?_of_contains (hw.live h hh)
  rw [get?_of_find? hfind hobject, (find?_eq_some_iff.1 hfind).1, Option.bind_some, hobject]

/-- A slot is occupied exactly when the list passes through it. -/
theorem WellFormed.isSome_object_iff (hw : heap.WellFormed) {i : Nat} {slot : Slot}
    (hslot : heap.slots[i]? = some slot) :
    slot.object.isSome ↔ i ∈ heap.handles.map Handle.slot := by
  constructor
  · intro hsome
    have hlt : i < UInt32.size :=
      Nat.lt_of_lt_of_le (Array.getElem?_eq_some_iff.1 hslot).1 hw.slots_le
    have hindex : (⟨UInt32.ofNat i, slot.generation⟩ : Handle).slot = i := by
      rw [Handle.slot, UInt32.toNat_ofNat_of_lt' hlt]
    have hfind := find?_eq_some_iff.2 ⟨hindex.symm ▸ hslot, rfl, hsome⟩
    exact List.mem_map.2 ⟨_, hw.listed _ (contains_of_find? hfind), hindex⟩
  · intro hmem
    obtain ⟨h, hh, rfl⟩ := List.mem_map.1 hmem
    exact hw.isSome_object hh hslot

/-- **The representation in every state.** Whatever calls were made of a new heap, and whether they
went through or not, the list, the free list, the generations, the finalizers and the counters
agree; and as long as the charges fit in a word, the walks of a sweep, of a release of all objects
and of a listing stay within occupied slots, and no counter goes below zero. -/
theorem representation_run (config : Config) (ops : List (Op φ))
    (hfit : ((ofConfig config : Heap φ).run ops).totalCharge < UInt64.size) :
    let heap := (ofConfig config : Heap φ).run ops
    heap.WellFormed ∧
      (∀ i slot, heap.slots[i]? = some slot →
        (slot.object.isSome ↔ i ∈ heap.handles.map Handle.slot)) ∧
      heap.objectsAllocated.toNat = heap.handles.length ∧
      heap.bytesAllocated.toNat = heap.totalCharge ∧
      heap.SweepsSafely ∧ heap.whiten.SweepsSafely ∧
      heap.entries.map Prod.fst = heap.handles := by
  intro heap
  have hi : heap.Intact := intact_run config ops
  have hw := hi.wellFormed
  have hskeleton := skeleton_eq_of_colorless_eq (colorless_whiten heap)
  have hfit' : heap.whiten.totalCharge < UInt64.size := by
    rw [totalCharge, handles_eq_of_skeleton_eq hskeleton, charges_eq_of_skeleton_eq hskeleton]
    exact hfit
  have hwhite : heap.whiten.Intact := ⟨hw.whiten, hi.headersDecode.whiten⟩
  exact ⟨hw, fun i slot hslot => hw.isSome_object_iff hslot, hw.toNat_objectsAllocated,
    hw.toNat_bytesAllocated hfit, hi.sweepsSafely hfit, hwhite.sweepsSafely hfit',
    hw.map_fst_entries⟩

/-- A history in which a slot is used again and a marking faults at the handle it had before. -/
theorem representation_run_reused_slot :
    let heap := (ofConfig Config.standard : Heap Unit).run
      [.allocate (.pair none none) 40 (some ()) true,
        .allocate (.pair (some ⟨0, 0⟩) none) 24 none true, .sweep,
        .allocate (.int 7) 32 none false, .mark ⟨none, [⟨0, 0⟩], []⟩]
    heap.totalCharge < UInt64.size ∧ heap.handles = [⟨0, 1⟩] ∧ heap.free = [1] ∧ heap.WellFormed ∧
      heap.SweepsSafely ∧ heap.bytesAllocated.toNat = heap.totalCharge := by
  intro heap
  have hfit : heap.totalCharge < UInt64.size := by decide
  obtain ⟨hw, -, -, hbytes, hsafe, -⟩ := representation_run Config.standard _ hfit
  exact ⟨hfit, by decide, by decide, hw, hsafe, hbytes⟩

end MarkSweep.Heap
