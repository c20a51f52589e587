import Mathlib.Data.List.Nodup
import MarkSweep.Proofs.Heap.Effects

/-!
# What a call adds to the account

From the four effects of a call it is drawn what the call does to a slot, to an object and to the
finalizers, in terms of the handles that it gives out and releases. A slot goes up by one
generation for each time that it is released. The list loses the handles that are released and
gains the one that is given out. What stays keeps its kind, its charge, its finalizer and, up to
the changes that are addressed to it, its payload.

Each fact is shown for one call here. `ledger` adds up, so that the facts about histories follow by
induction.
-/

namespace MarkSweep.Heap

variable {φ : Type} {heap heap' painted after : Heap φ} {h k : Handle} {op : Op φ} {tag : Tag}
  {size : UInt64} {object : Object}

/-! ### Generations -/

theorem generationOf_eq_of_find? {slot : Slot} (hfind : heap.find? h = some slot) :
    heap.generationOf h.slot = h.generation := by
  obtain ⟨hslot, hgeneration, -⟩ := find?_eq_some_iff.1 hfind
  rw [generationOf, hslot, Option.map_some, Option.getD_some, hgeneration]

/-- A slot in another generation does not belong to the handle. -/
theorem contains_eq_false_of_generation (hne : heap.generationOf h.slot ≠ h.generation) :
    heap.contains h = false := by
  rw [Bool.eq_false_iff]
  intro hlive
  obtain ⟨slot, hfind⟩ := Option.isSome_iff_exists.1 hlive
  exact hne (generationOf_eq_of_find? hfind)

theorem generationOf_eq_of_skeleton_eq (hs : heap'.skeleton = heap.skeleton) (i : Nat) :
    heap'.generationOf i = heap.generationOf i := by
  have hgeneration (heap : Heap φ) : heap.skeleton.generationOf i = heap.generationOf i := by
    rw [generationOf, skeleton, getElem?_mapSlots, Option.map_map]
    rfl
  rw [← hgeneration, hs, hgeneration]

theorem generationOf_enter (ho : heap.Occupied object size h after)
    (hgeneration : heap.generationOf h.slot = h.generation) (finalizer : Option φ) (i : Nat) :
    (after.enter h size finalizer).generationOf i = heap.generationOf i := by
  change after.generationOf i = heap.generationOf i
  by_cases hi : h.slot = i
  · subst hi
    rw [hgeneration, generationOf, ho.self]
    rfl
  · rw [generationOf, ho.other i hi, generationOf]

theorem nodup_sweepReleases (hw : heap.WellFormed) :
    (heap.sweepReleases.map Handle.slot).Nodup := by
  rw [sweepReleases_eq hw]
  exact (List.filter_sublist.map Handle.slot).nodup hw.nodup

theorem mem_sweepReleases_iff (hw : heap.WellFormed) :
    k ∈ heap.sweepReleases ↔ heap.contains k ∧ heap.isDoomed k := by
  rw [sweepReleases_eq hw, List.mem_filter, hw.mem_handles_iff]

/-- A sweep takes a slot on by one generation if it releases its object, and by none otherwise. -/
theorem generationOf_sweep (hw : heap.WellFormed) (i : Nat) :
    heap.sweep.state.generationOf i =
      heap.generationOf i + UInt32.ofNat ((heap.sweepReleases.map Handle.slot).count i) := by
  obtain ⟨s, hp, heq⟩ := exists_progress hw
  have hslots : heap.sweep.state.slots = s.heap.slots := by rw [heq]
  rw [generationOf, hslots]
  by_cases hreleased : i ∈ heap.sweepReleases.map Handle.slot
  · rw [List.count_eq_one_of_mem (nodup_sweepReleases hw) hreleased]
    obtain ⟨k, hk, rfl⟩ := List.mem_map.1 hreleased
    obtain ⟨hlive, hdoomed⟩ := (mem_sweepReleases_iff hw).1 hk
    obtain ⟨slot, -, hfind, -⟩ := exists_find?_of_contains hlive
    rw [hp.vacated k (hw.listed k hlive) hdoomed, generationOf, (find?_eq_some_iff.1 hfind).1]
    rfl
  · rw [List.count_eq_zero_of_not_mem hreleased]
    change _ = heap.generationOf i + 0
    rw [UInt32.add_zero]
    by_cases hmet : ∃ k ∈ heap.handles, k.slot = i
    · -- the object in the slot is one that stays
      obtain ⟨k, hk, rfl⟩ := hmet
      have hblack : heap.isBlack k := by
        by_contra hblack
        refine hreleased (List.mem_map_of_mem ((mem_sweepReleases_iff hw).2 ⟨hw.live k hk, ?_⟩))
        simpa [isDoomed] using hblack
      have hkept := congrArg (Option.map Slot.generation) (hp.kept k hk hblack)
      rw [Option.map_map, Option.map_map] at hkept
      exact congrArg (fun o : Option UInt32 => o.getD 0) hkept
    · rw [hp.untouched i fun k hk heq => hmet ⟨k, hk, heq⟩, generationOf]

/-! ### Objects -/

/-- A live object of this kind, with this charge and this payload. -/
def Holds (heap : Heap φ) (h : Handle) (tag : Tag) (size : UInt64) (object : Object) : Prop :=
  ∃ slot, heap.find? h = some slot ∧ slot.header.tag = .ok tag ∧ slot.size = size ∧
    slot.object = some object

theorem Holds.get? (hh : heap.Holds h tag size object) : heap.get? h = some object := by
  obtain ⟨slot, hfind, -, -, hobject⟩ := hh
  exact get?_of_find? hfind hobject

theorem Holds.contains (hh : heap.Holds h tag size object) : heap.contains h :=
  contains_of_get? hh.get?

theorem Holds.generationOf_eq (hh : heap.Holds h tag size object) :
    heap.generationOf h.slot = h.generation := by
  obtain ⟨slot, hfind, -⟩ := hh
  exact generationOf_eq_of_find? hfind

theorem Holds.chargeOf_eq (hh : heap.Holds h tag size object) : heap.chargeOf h = size := by
  obtain ⟨slot, hfind, -, hsize, -⟩ := hh
  rw [chargeOf, (find?_eq_some_iff.1 hfind).1, Option.map_some, Option.getD_some, hsize]

theorem Holds.unique {tag' : Tag} {size' : UInt64} {object' : Object}
    (hh : heap.Holds h tag size object) (hh' : heap.Holds h tag' size' object') :
    tag = tag' ∧ size = size' ∧ object = object' := by
  obtain ⟨slot, hfind, htag, hsize, hobject⟩ := hh
  obtain ⟨slot', hfind', htag', hsize', hobject'⟩ := hh'
  obtain rfl := Option.some.inj (hfind.symm.trans hfind')
  exact ⟨Except.ok.inj (htag.symm.trans htag'), hsize.symm.trans hsize',
    Option.some.inj (hobject.symm.trans hobject')⟩

theorem Holds.of_colorless_eq (hh : heap.Holds h tag size object)
    (hc : heap'.colorless = heap.colorless) : heap'.Holds h tag size object := by
  obtain ⟨slot, hfind, htag, hsize, hobject⟩ := hh
  obtain ⟨slot', hfind', heq⟩ := find?_of_colorless_eq hc.symm hfind
  refine ⟨slot', hfind', ?_, (congrArg Slot.size heq.symm :).trans hsize,
    (congrArg Slot.object heq.symm :).trans hobject⟩
  have hheader : slot'.header.setColor .white = slot.header.setColor .white :=
    (congrArg Slot.header heq.symm :)
  rw [← Header.tag_setColor slot'.header .white, hheader, Header.tag_setColor, htag]

theorem Holds.sweep (hh : heap.Holds h tag size object) (hw : heap.WellFormed)
    (hblack : heap.isBlack h) : heap.sweep.state.Holds h tag size object := by
  obtain ⟨slot, hfind, htag, hsize, hobject⟩ := hh
  have hkept := find?_sweep hw hblack
  rw [hfind, Option.map_some, Option.map_eq_some_iff] at hkept
  obtain ⟨slot', hfind', heq⟩ := hkept
  refine ⟨slot', hfind', ?_, (congrArg Slot.size heq :).trans hsize,
    (congrArg Slot.object heq :).trans hobject⟩
  have hheader : slot'.header = slot.header.setColor .white := (congrArg Slot.header heq :)
  rw [hheader, Header.tag_setColor, htag]

theorem Holds.withObject {target : Handle} {old new : Object} (hh : heap.Holds h tag size object)
    (hget : heap.get? target = some old) :
    (heap.withObject target new).Holds h tag size (if h = target then new else object) := by
  obtain ⟨slot, hfind, htag, hsize, hobject⟩ := hh
  rw [Holds, find?_withObject hget]
  by_cases htarget : h = target
  · rw [if_pos htarget, if_pos htarget, hfind]
    exact ⟨_, rfl, htag, hsize, rfl⟩
  · rw [if_neg htarget, if_neg htarget]
    exact ⟨slot, hfind, htag, hsize, hobject⟩

theorem Holds.occupied {new : Object} {charge : UInt64} (hh : heap.Holds h tag size object)
    (ho : heap.Occupied new charge k after) (finalizer : Option φ) :
    (after.enter k charge finalizer).Holds h tag size object := by
  obtain ⟨slot, hfind, hrest⟩ := hh
  exact ⟨slot, (ho.find?_of_contains (contains_of_find? hfind)).trans hfind, hrest⟩

/-! ### Finalizers -/

/-- Only live objects have a finalizer. -/
theorem WellFormed.finalizers_eq_none (hw : heap.WellFormed) (hstale : heap.contains h = false) :
    heap.finalizers[h]? = none := by
  rw [← Option.isNone_iff_eq_none, ← Option.isSome_eq_false_iff,
    ← Std.TreeMap.contains_eq_isSome_getElem?, Bool.eq_false_iff]
  intro hmem
  rw [hw.finalizers_live h hmem] at hstale
  cases hstale

/-- The finalizer that is registered with an object is that of its handle. -/
theorem WellFormed.finalizers_enter (hw : heap.WellFormed) (ho : heap.Occupied object size h after)
    (finalizer : Option φ) (k : Handle) : (after.enter h size finalizer).finalizers[k]? =
      if h = k then finalizer else heap.finalizers[k]? := by
  have hfinalizers : after.finalizers = heap.finalizers := (congrArg Heap.finalizers ho.rest :)
  change (finalizer.elim after.finalizers (after.finalizers.insert h))[k]? = _
  rw [hfinalizers]
  by_cases hk : h = k
  · subst hk
    rcases finalizer with _ | finalizer
    · simp [hw.finalizers_eq_none ho.contains_eq_false]
    · simp
  · rcases finalizer with _ | finalizer <;> simp [hk, Std.TreeMap.getElem?_insert]

theorem finalizers_sweep_eq (hw : heap.WellFormed) (k : Handle) :
    heap.sweep.state.finalizers[k]? =
      if k ∈ heap.sweepReleases then none else heap.finalizers[k]? := by
  obtain ⟨s, hp, heq⟩ := exists_progress hw
  rw [sweepReleases_eq hw, heq]
  exact hp.finalizers_eq k

/-- A sweep answers how many finalizers it ran. -/
theorem finalizersRun_sweep (hw : heap.WellFormed) :
    heap.sweep.stats.finalizersRun.toNat = heap.sweep.finalized.length := by
  have hcount :
      (heap.handles.filter heap.isDoomed).countP (fun k => (heap.finalizationOf? k).isSome) =
        (heap.handles.filter heap.isDoomed).countP heap.finalizers.contains :=
    List.countP_congr fun k hk => by
      rw [isSome_finalizationOf? (hw.live k (List.mem_filter.1 hk).1)]
  rw [toNat_finalizersRun_sweep hw, finalized_sweep hw, List.length_filterMap_eq_countP, hcount]

/-! ### One call -/

theorem get?_of_colorless_eq (hc : heap'.colorless = heap.colorless) (h : Handle) :
    heap'.get? h = heap.get? h := by
  have hobject (heap : Heap φ) : heap.colorless.get? h = heap.get? h := by
    rw [get?, find?_colorless, Option.bind_map]
    rfl
  rw [← hobject, hc, hobject]

theorem SameContents.find? (hs : heap.SameContents heap') (h : Handle) :
    heap'.find? h = heap.find? h := by
  rw [Heap.find?, hs.slots, Heap.find?]

theorem SameContents.handles (hs : heap.SameContents heap') : heap'.handles = heap.handles := by
  rw [Heap.handles, hs.slots, hs.head, Heap.handles]

theorem issued_allocate {finalizer : Option φ} {granted : Bool}
    (hanswer : (heap.allocate object size finalizer granted).answer = .ok h) :
    (Op.allocate object size finalizer granted).issued heap = some h := by
  rw [Op.issued, Op.perform, hanswer]
  rfl

/-- A handle is given out by the answer. -/
theorem answer_of_issued {finalizer : Option φ} {granted : Bool}
    (hissued : (Op.allocate object size finalizer granted).issued heap = some h) :
    (heap.allocate object size finalizer granted).answer = .ok h := by
  rw [Op.issued, Op.perform] at hissued
  rcases hanswer : (heap.allocate object size finalizer granted).answer with e | k
  · rw [hanswer] at hissued
    cases hissued
  · rw [hanswer] at hissued
    exact congrArg Except.ok (Option.some.inj hissued)

namespace Intact

variable (hi : heap.Intact) (op : Op φ)
include hi

/-- **Generations count releases.** -/
theorem generationOf_perform (i : Nat) : (op.perform heap).state.generationOf i =
    heap.generationOf i + UInt32.ofNat (((op.released heap).map Handle.slot).count i) := by
  have hquiet {state : Heap φ} (hstate : state.generationOf i = heap.generationOf i)
      (hreleased : op.released heap = []) : state.generationOf i =
        heap.generationOf i + UInt32.ofNat (((op.released heap).map Handle.slot).count i) := by
    rw [hreleased, hstate]
    exact (UInt32.add_zero _).symm
  cases hi.effect op with
  | painted state quiet _ =>
    exact hquiet (generationOf_eq_of_skeleton_eq (skeleton_eq_of_colorless_eq state) i)
      quiet.released
  | written target old new live state quiet _ =>
    rw [state]
    exact hquiet (generationOf_eq_of_skeleton_eq (skeleton_withObject live) i) quiet.released
  | entered h object size finalizer granted after op_eq ho hgeneration hperform =>
    rw [hperform]
    exact hquiet (generationOf_enter ho hgeneration finalizer i) (by rw [op_eq]; rfl)
  | swept painted hc hp state _ released _ _ _ =>
    rw [generationOf, state.slots, released,
      ← generationOf_eq_of_skeleton_eq (skeleton_eq_of_colorless_eq hc) i]
    exact generationOf_sweep hp.wellFormed i

omit op in
theorem exists_holds (hlive : heap.contains h) :
    ∃ tag size object, heap.Holds h tag size object := by
  obtain ⟨slot, object, hfind, hobject⟩ := exists_find?_of_contains hlive
  obtain ⟨⟨tag, htag⟩, -⟩ := hi.headersDecode h slot hfind
  exact ⟨tag, slot.size, object, slot, hfind, htag, rfl, hobject⟩

/-- What is released was in the list, and the list is left with the rest of it, behind the handle
that is given out. -/
theorem exists_partition : ∃ goes : Handle → Bool,
    op.released heap = heap.handles.filter goes ∧
      (op.perform heap).state.handles =
        (op.issued heap).toList ++ heap.handles.filter fun k => !goes k := by
  cases hi.effect op with
  | painted state quiet _ =>
    refine ⟨fun _ => false, by simp [quiet.released], ?_⟩
    rw [handles_eq_of_skeleton_eq (skeleton_eq_of_colorless_eq state), quiet.issued]
    simp
  | written target old new live state quiet _ =>
    refine ⟨fun _ => false, by simp [quiet.released], ?_⟩
    rw [state, handles_eq_of_skeleton_eq (skeleton_withObject live), quiet.issued]
    simp
  | entered h object size finalizer granted after op_eq ho _ hperform =>
    refine ⟨fun _ => false, by simp [op_eq, Op.released], ?_⟩
    have hissued : op.issued heap = some h := by rw [Op.issued, hperform]; rfl
    rw [hperform, hissued, (hi.wellFormed.enter ho finalizer).2]
    simp
  | swept painted hc hp state issued released _ _ _ =>
    have hhandles := handles_eq_of_skeleton_eq (skeleton_eq_of_colorless_eq hc)
    refine ⟨painted.isDoomed, ?_, ?_⟩
    · rw [released, sweepReleases_eq hp.wellFormed, hhandles]
    · rw [state.handles, handles_sweep hp.wellFormed, issued, hhandles]
      simp [isDoomed]

theorem contains_of_mem_released (hk : k ∈ op.released heap) : heap.contains k := by
  obtain ⟨goes, hreleased, -⟩ := hi.exists_partition op
  rw [hreleased] at hk
  exact hi.wellFormed.live k (List.mem_filter.1 hk).1

theorem nodup_released : (op.released heap).Nodup := by
  obtain ⟨goes, hreleased, -⟩ := hi.exists_partition op
  rw [hreleased]
  exact hi.wellFormed.handles_nodup.filter goes

/-- What is live after a call was given out by it, or was live and is not released. -/
theorem contains_perform_iff : (op.perform heap).state.contains k ↔
    op.issued heap = some k ∨ heap.contains k ∧ k ∉ op.released heap := by
  obtain ⟨goes, hreleased, hhandles⟩ := hi.exists_partition op
  rw [← (hi.perform op).wellFormed.mem_handles_iff, hhandles, hreleased, List.mem_append,
    Option.mem_toList, List.mem_filter, List.mem_filter, hi.wellFormed.mem_handles_iff]
  refine or_congr_right ⟨?_, ?_⟩
  · rintro ⟨hlive, hstays⟩
    exact ⟨hlive, fun hgoes => by simp [hgoes.2] at hstays⟩
  · rintro ⟨hlive, hstays⟩
    exact ⟨hlive, by simpa [hlive] using hstays⟩

/-- **A handle is given out** for the object of an allocation, in the generation that its slot has,
in which there was no object before. -/
theorem exists_of_issued {op : Op φ} (hissued : op.issued heap = some h) :
    ∃ object size finalizer granted, op = .allocate object size finalizer granted ∧
      heap.contains h = false ∧ heap.generationOf h.slot = h.generation ∧
      (op.perform heap).state.Holds h object.tag size object := by
  cases hi.effect op with
  | painted _ quiet _ =>
    rw [quiet.issued] at hissued
    cases hissued
  | written target old new _ _ quiet _ =>
    rw [quiet.issued] at hissued
    cases hissued
  | entered k object size finalizer granted after op_eq ho hgeneration hperform =>
    rw [Op.issued, hperform] at hissued
    obtain rfl : k = h := Option.some.inj hissued
    refine ⟨object, size, finalizer, granted, op_eq, ho.contains_eq_false, hgeneration, ?_⟩
    rw [hperform]
    exact ⟨_, ho.find?_self, Header.tag_make _ _, rfl, rfl⟩
  | swept painted _ _ _ issued _ _ _ _ =>
    rw [issued] at hissued
    cases hissued

omit op in
/-- An allocation that succeeds leaves its object under the handle that it gives out. -/
theorem holds_allocate {finalizer : Option φ} {granted : Bool}
    (hanswer : (heap.allocate object size finalizer granted).answer = .ok h) :
    (heap.allocate object size finalizer granted).state.Holds h object.tag size object := by
  obtain ⟨_, _, _, _, heq, -, -, hh⟩ := hi.exists_of_issued (issued_allocate hanswer)
  obtain ⟨rfl, rfl, rfl, rfl⟩ := Op.allocate.inj heq
  exact hh

/-- A live handle is not given out. -/
theorem issued_ne (hlive : heap.contains h) : op.issued heap ≠ some h := by
  intro hissued
  obtain ⟨-, -, -, -, -, hstale, -⟩ := hi.exists_of_issued hissued
  rw [hlive] at hstale
  cases hstale

theorem contains_perform_eq_false (hk : k ∈ op.released heap) :
    (op.perform heap).state.contains k = false := by
  rw [Bool.eq_false_iff, ne_eq, hi.contains_perform_iff]
  rintro (hissued | ⟨-, hstays⟩)
  · exact hi.issued_ne op (hi.contains_of_mem_released op hk) hissued
  · exact hstays hk

/-- An object that is not released is held after a call as before, but for its payload. -/
theorem holds_perform (hh : heap.Holds h tag size object) (hstays : h ∉ op.released heap) :
    (op.perform heap).state.Holds h tag size (op.payload heap h object) := by
  cases hi.effect op with
  | painted state _ payload =>
    rw [payload h object hh.get?]
    exact hh.of_colorless_eq state
  | written target old new live state _ payload =>
    rw [state, payload h object hh.get?]
    exact hh.withObject live
  | entered k new charge finalizer granted after op_eq ho _ hperform =>
    rw [hperform, op_eq]
    exact hh.occupied ho finalizer
  | swept painted hc hp state _ released _ _ payload =>
    rw [payload]
    have hpainted := hh.of_colorless_eq hc
    have hblack : painted.isBlack h := by
      by_contra hblack
      rw [released, mem_sweepReleases_iff hp.wellFormed] at hstays
      exact hstays ⟨hpainted.contains, by simpa [isDoomed] using hblack⟩
    have hswept := hpainted.sweep hp.wellFormed hblack
    rw [Holds, state.find?]
    exact hswept

/-- A finalizer comes with the handle that is given out, and goes with those that are released. -/
theorem finalizers_perform (k : Handle) : (op.perform heap).state.finalizers[k]? =
    if op.issued heap = some k then op.finalizer?
    else if k ∈ op.released heap then none else heap.finalizers[k]? := by
  cases hi.effect op with
  | painted state quiet _ =>
    have hfinalizers : (op.perform heap).state.finalizers = heap.finalizers :=
      (congrArg Heap.finalizers state :)
    simp [hfinalizers, quiet.issued, quiet.released]
  | written target old new live state quiet _ =>
    rw [state, quiet.issued, quiet.released]
    simp [withObject, updateSlot]
  | entered h object size finalizer granted after op_eq ho _ hperform =>
    have hissued : op.issued heap = some h := by rw [Op.issued, hperform]; rfl
    have hreleased : op.released heap = [] := by rw [op_eq]; rfl
    have hfinalizer : op.finalizer? = finalizer := by rw [op_eq]; rfl
    rw [hperform, hissued, hreleased, hfinalizer, hi.wellFormed.finalizers_enter ho]
    simp
  | swept painted hc hp state issued released _ _ _ =>
    have hfinalizers : painted.finalizers = heap.finalizers := (congrArg Heap.finalizers hc :)
    rw [state.finalizers, finalizers_sweep_eq hp.wellFormed, issued, released, hfinalizers]
    rfl

/-- The finalizers that run are those of what is released, each with the payload of its object. -/
theorem finalized_perform :
    op.finalized heap = (op.released heap).filterMap heap.finalizationOf? := by
  cases hi.effect op with
  | painted _ quiet _ =>
    rw [quiet.finalized, quiet.released]
    rfl
  | written target old new _ _ quiet _ =>
    rw [quiet.finalized, quiet.released]
    rfl
  | entered h object size finalizer granted after op_eq _ _ hperform =>
    rw [Op.finalized, hperform, op_eq]
    rfl
  | swept painted hc hp _ _ released finalized _ _ =>
    have hfinalizers : painted.finalizers = heap.finalizers := (congrArg Heap.finalizers hc :)
    have hruns : painted.finalizationOf? = heap.finalizationOf? := by
      funext k
      rw [finalizationOf?, finalization?_eq, get?_of_colorless_eq hc, hfinalizers,
        ← finalization?_eq, finalizationOf?]
    rw [finalized, finalized_sweep hp.wellFormed, released, sweepReleases_eq hp.wellFormed, hruns]

/-- A sweep answers the number of finalizers that run, and no other call runs any. -/
theorem finalizersRun_perform :
    (op.sweep? heap).elim 0 (fun stats => stats.finalizersRun.toNat) =
      (op.finalized heap).length := by
  cases hi.effect op with
  | painted _ quiet _ =>
    rw [quiet.sweep?, quiet.finalized]
    rfl
  | written target old new _ _ quiet _ =>
    rw [quiet.sweep?, quiet.finalized]
    rfl
  | entered h object size finalizer granted after op_eq _ _ hperform =>
    rw [Op.sweep?, Op.finalized, hperform]
    rfl
  | swept painted hc hp _ _ released finalized sweep? _ =>
    rw [sweep?, finalized]
    exact finalizersRun_sweep hp.wellFormed

/-- Only sweeps release objects. -/
theorem isSome_sweep? (hk : k ∈ op.released heap) : (op.sweep? heap).isSome := by
  cases hi.effect op with
  | painted _ quiet _ =>
    rw [quiet.released] at hk
    cases hk
  | written target old new _ _ quiet _ =>
    rw [quiet.released] at hk
    cases hk
  | entered h object size finalizer granted after op_eq _ _ _ =>
    rw [op_eq] at hk
    cases hk
  | swept painted _ _ _ _ _ _ sweep? _ =>
    rw [sweep?]
    rfl

theorem config_perform : (op.perform heap).state.config = heap.config := by
  cases hi.effect op with
  | painted state _ _ =>
    exact (congrArg Heap.config state :)
  | written target old new _ state _ _ =>
    rw [state]
    rfl
  | entered h object size finalizer granted after _ ho _ hperform =>
    rw [hperform]
    exact (congrArg Heap.config ho.rest :)
  | swept painted hc hp state _ _ _ _ _ =>
    rw [state.config, config_sweep hp.wellFormed]
    exact (congrArg Heap.config hc :)

end Intact

/-! ### Histories -/

namespace Intact

variable (hi : heap.Intact) (ops : List (Op φ))
include hi

theorem run : (heap.run ops).Intact := run_induction (fun _ op hi => hi.perform op) hi ops

/-- An object that is not released is held after a history as before, but for its payload. -/
theorem holds_run (hh : heap.Holds h tag size object) (hstays : h ∉ heap.released ops) :
    (heap.run ops).Holds h tag size (heap.payload h object ops) := by
  induction ops generalizing heap object with
  | nil => exact hh
  | cons op ops ih =>
    rw [released_cons, List.mem_append, not_or] at hstays
    exact ih (hi.perform op) (hi.holds_perform op hh hstays.1) hstays.2

theorem config_run : (heap.run ops).config = heap.config := by
  induction ops generalizing heap with
  | nil => rfl
  | cons op ops ih => exact (ih (hi.perform op)).trans (hi.config_perform op)

end Intact

end MarkSweep.Heap
