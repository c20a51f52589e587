import MarkSweep.Heap.Resource
import MarkSweep.Proofs.Heap.Tricolor

/-!
# Calls do not look at thresholds

A threshold is there for the caller, who may ask whether a collection should come first. No call of
an operation of the heap reads it for anything else than to adjust it. `Heap.untuned` forgets the
thresholds and what was configured for them, and `untuned_perform` says that a call answers the same
without them and leaves the same but for them. So heaps that are configured with different
thresholds go through the same history in step (`left_eq_of_untuned_eq`).
-/

namespace MarkSweep

variable {φ : Type}

/-- The heap without its thresholds and without those that were configured. -/
def Heap.untuned (heap : Heap φ) : Heap φ :=
  { heap with
    objectsThreshold := 0
    bytesThreshold := 0
    config := { heap.config with objectsThreshold := 0, bytesThreshold := 0 } }

/-! ### Marking -/

namespace Marking

/-- Marking in progress in the heap without its thresholds. -/
def untuned (m : Marking φ) : Marking φ := { m with heap := m.heap.untuned }

theorem shade_untuned (m : Marking φ) (h : Handle) :
    m.untuned.shade h = ((m.shade h).1.untuned, (m.shade h).2) := by
  have hfind : m.untuned.heap.find? h = m.heap.find? h := rfl
  rw [shade, shade, hfind]
  rcases m.heap.find? h with _ | slot
  · rfl
  · rcases hcolor : slot.header.colorOrFault with fault | c
    · simp [hcolor]
    · simp only [hcolor]
      cases c <;> rfl

theorem shadeAll_untuned (m : Marking φ) (hs : List Handle) :
    m.untuned.shadeAll hs = ((m.shadeAll hs).1.untuned, (m.shadeAll hs).2) := by
  induction hs generalizing m with
  | nil => rfl
  | cons h hs ih =>
    rw [shadeAll, shadeAll, shade_untuned]
    rcases m.shade h with ⟨m', _ | fault⟩
    · exact ih m'
    · rfl

theorem visit_untuned (m : Marking φ) (h : Handle) :
    m.untuned.visit h = ((m.visit h).1.untuned, (m.visit h).2) := by
  have hfind : m.untuned.heap.find? h = m.heap.find? h := rfl
  rw [visit, visit, hfind]
  rcases m.heap.find? h with _ | slot
  · rfl
  · rcases htag : slot.header.tagOrFault with fault | tag
    · simp [htag]
    · simp only [htag]
      split
      · exact shadeAll_untuned
          { m with heap := m.heap.recolor h .black, reached := h :: m.reached } _
      · rfl

theorem drain_untuned (m : Marking φ) :
    m.untuned.drain = (m.drain.1.untuned, m.drain.2) := by
  induction hn : m.weight using Nat.strongRecOn generalizing m with
  | ind n ih =>
    have hpending : m.untuned.pending = m.pending := rfl
    rcases hpop : m.pending.pop? with _ | ⟨h, rest⟩
    · rw [drain_of_pop?_eq_none hpop, drain_of_pop?_eq_none (hpending ▸ hpop)]
    · have hlt := weight_visit_lt hpop
      have hvisit : visit { m.untuned with pending := rest } h =
          ((visit { m with pending := rest } h).1.untuned,
            (visit { m with pending := rest } h).2) := visit_untuned { m with pending := rest } h
      rw [drain_of_pop?_eq_some hpop, drain_of_pop?_eq_some (hpending ▸ hpop), hvisit]
      rcases hm : visit { m with pending := rest } h with ⟨m', _ | fault⟩
      · rw [hm, hn] at hlt
        exact ih m'.weight hlt m' rfl
      · rfl

theorem fromRoots_untuned (heap : Heap φ) (roots : List Handle) :
    fromRoots heap.untuned roots =
      ((fromRoots heap roots).1.untuned, (fromRoots heap roots).2) := by
  have hroots : shadeAll ⟨heap.untuned, Worklist.empty, []⟩ roots =
      ((shadeAll ⟨heap, Worklist.empty, []⟩ roots).1.untuned,
        (shadeAll ⟨heap, Worklist.empty, []⟩ roots).2) :=
    shadeAll_untuned ⟨heap, Worklist.empty, []⟩ roots
  rw [fromRoots, fromRoots, hroots]
  rcases shadeAll ⟨heap, Worklist.empty, []⟩ roots with ⟨m, _ | fault⟩
  · exact drain_untuned m
  · rfl

end Marking

/-! ### Sweeping -/

namespace Sweeping

/-- A sweep in progress of the heap without its thresholds. -/
def untuned (s : Sweeping φ) : Sweeping φ := { s with heap := s.heap.untuned }

theorem step_untuned (s : Sweeping φ) (h : Handle) : s.untuned.step h = (s.step h).untuned := by
  have hslots : s.untuned.heap.slots = s.heap.slots := rfl
  rw [step, step, hslots]
  rcases s.heap.slots[h.slot]? with _ | slot
  · rfl
  · simp only
    split
    · rfl
    · obtain ⟨heap, _ | prev, stats, finalized⟩ := s <;> rfl

theorem foldl_step_untuned (s : Sweeping φ) (hs : List Handle) :
    hs.foldl step s.untuned = (hs.foldl step s).untuned := by
  induction hs generalizing s with
  | nil => rfl
  | cons h hs ih => rw [List.foldl_cons, step_untuned, ih, List.foldl_cons]

end Sweeping

namespace Heap

variable {heap heap' : Heap φ}

theorem mark_untuned (heap : Heap φ) (roots : Roots) :
    (heap.untuned.mark roots).answer = (heap.mark roots).answer ∧
      (heap.untuned.mark roots).state = (heap.mark roots).state.untuned := by
  rw [answer_mark, answer_mark, state_mark, state_mark, Marking.fromRoots_untuned]
  exact ⟨rfl, rfl⟩

theorem sweep_untuned (heap : Heap φ) :
    heap.untuned.sweep.state = heap.sweep.state.untuned ∧
      heap.untuned.sweep.stats = heap.sweep.stats := by
  have hfold : heap.untuned.handles.foldl Sweeping.step ⟨heap.untuned, none, SweepStats.zero, #[]⟩ =
      (heap.handles.foldl Sweeping.step ⟨heap, none, SweepStats.zero, #[]⟩).untuned :=
    Sweeping.foldl_step_untuned ⟨heap, none, SweepStats.zero, #[]⟩ heap.handles
  simp only [sweep, hfold]
  exact ⟨rfl, rfl⟩

theorem whiten_untuned (heap : Heap φ) : heap.untuned.whiten = heap.whiten.untuned := by
  have hfold (hs : List Handle) : ∀ heap : Heap φ,
      hs.foldl (fun heap h => heap.recolor h .white) heap.untuned =
        (hs.foldl (fun heap h => heap.recolor h .white) heap).untuned := by
    induction hs with
    | nil => exact fun heap => rfl
    | cons h hs ih => exact fun heap => ih (heap.recolor h .white)
  exact hfold heap.handles heap

/-! ### Calls -/

theorem allocate_untuned (heap : Heap φ) (object : Object) (size : UInt64) (finalizer : Option φ)
    (granted : Bool) :
    (heap.untuned.allocate object size finalizer granted).answer =
        (heap.allocate object size finalizer granted).answer ∧
      (heap.untuned.allocate object size finalizer granted).state =
        (heap.allocate object size finalizer granted).state.untuned := by
  have hstale : heap.untuned.stale? object.references = heap.stale? object.references := rfl
  have hrefused : (heap.untuned.wouldExceed size || !heap.untuned.hasSlot granted) =
      (heap.wouldExceed size || !heap.hasSlot granted) := rfl
  have hoccupy : heap.untuned.occupy object size =
      ((heap.occupy object size).1, (heap.occupy object size).2.untuned) := by
    have hfree : heap.untuned.free = heap.free := rfl
    rw [occupy, occupy, hfree]
    rcases heap.free with _ | ⟨index, rest⟩ <;> rfl
  rw [allocate, allocate, hstale, hrefused, hoccupy]
  rcases heap.stale? object.references with _ | r
  · simp only
    split <;> exact ⟨rfl, rfl⟩
  · exact ⟨rfl, rfl⟩

theorem edit_untuned (heap : Heap φ) (target : Handle) (change : Object → Option Object) :
    (heap.untuned.edit target change).answer = (heap.edit target change).answer ∧
      (heap.untuned.edit target change).state = (heap.edit target change).state.untuned := by
  have hget : heap.untuned.get? target = heap.get? target := rfl
  rw [edit, edit, hget]
  rcases heap.get? target with _ | object
  · exact ⟨rfl, rfl⟩
  · simp only
    rcases change object with _ | new <;> exact ⟨rfl, rfl⟩

theorem store_untuned (heap : Heap φ) (target : Handle) (field : RefField) (ref : Option Handle) :
    (heap.untuned.store target field ref).answer = (heap.store target field ref).answer ∧
      (heap.untuned.store target field ref).state =
        (heap.store target field ref).state.untuned := by
  have hstale : heap.untuned.stale? ref.toList = heap.stale? ref.toList := rfl
  rw [store, store, hstale]
  rcases heap.stale? ref.toList with _ | r
  · exact edit_untuned heap target _
  · exact ⟨rfl, rfl⟩

theorem untuned_adjustThresholds (heap : Heap φ) :
    heap.untuned.adjustThresholds.countCollection.untuned =
      heap.adjustThresholds.countCollection.untuned := rfl

/-- A full collection adjusts the thresholds to what it leaves, and has no other use for them. -/
theorem collect_untuned (heap : Heap φ) (roots : Roots) :
    (heap.untuned.collect roots).answer = (heap.collect roots).answer ∧
      (heap.untuned.collect roots).state.untuned = (heap.collect roots).state.untuned := by
  obtain ⟨hanswer, hstate⟩ := mark_untuned heap roots
  obtain ⟨hswept, hstats⟩ := sweep_untuned (heap.mark roots).state
  rcases hmark : (heap.mark roots).answer with fault | reached
  · simp only [collect, hanswer, hmark, hstate, true_and]
    rfl
  · simp only [collect, hanswer, hmark, hstate, hswept, hstats, true_and]
    exact untuned_adjustThresholds _

/-- **A call does not look at thresholds**: it answers the same without them, and leaves the same
but for them. -/
theorem untuned_perform (heap : Heap φ) (op : Op φ) :
    (op.perform heap.untuned).answer = (op.perform heap).answer ∧
      (op.perform heap.untuned).state.untuned = (op.perform heap).state.untuned := by
  cases op with
  | allocate object size finalizer granted =>
    obtain ⟨hanswer, hstate⟩ := allocate_untuned heap object size finalizer granted
    rw [Op.perform, Op.perform, hanswer, hstate]
    exact ⟨rfl, rfl⟩
  | edit target change =>
    obtain ⟨hanswer, hstate⟩ := edit_untuned heap target change
    rw [Op.perform, Op.perform, hanswer, hstate]
    exact ⟨rfl, rfl⟩
  | store target field ref =>
    obtain ⟨hanswer, hstate⟩ := store_untuned heap target field ref
    rw [Op.perform, Op.perform, hanswer, hstate]
    exact ⟨rfl, rfl⟩
  | mark roots =>
    obtain ⟨hanswer, hstate⟩ := mark_untuned heap roots
    rw [Op.perform, Op.perform, hanswer, hstate]
    exact ⟨rfl, rfl⟩
  | sweep =>
    obtain ⟨hstate, hstats⟩ := sweep_untuned heap
    rw [Op.perform, Op.perform, hstate, hstats]
    exact ⟨rfl, rfl⟩
  | collect roots =>
    obtain ⟨hanswer, hstate⟩ := collect_untuned heap roots
    rw [Op.perform, Op.perform, hanswer]
    exact ⟨rfl, hstate⟩
  | releaseAll =>
    obtain ⟨hstate, hstats⟩ := sweep_untuned heap.whiten
    rw [Op.perform, Op.perform, releaseAll, releaseAll, whiten_untuned, hstate, hstats]
    exact ⟨rfl, rfl⟩

theorem untuned_ofConfig {config config' : Config} (hpolicy : config'.policy = config.policy)
    (hmax : config'.maxBytes = config.maxBytes) :
    (ofConfig config' : Heap φ).untuned = (ofConfig config : Heap φ).untuned := by
  simp [untuned, ofConfig, hpolicy, hmax]

/-- Heaps that differ in their thresholds only go through a history in step. -/
theorem left_eq_of_untuned_eq (huntuned : heap'.untuned = heap.untuned) (r : Resource)
    (ops : List (Op φ)) : heap'.left r ops = heap.left r ops := by
  induction ops generalizing heap heap' with
  | nil => rfl
  | cons op ops ih =>
    obtain ⟨hanswer, hstate⟩ := untuned_perform heap op
    obtain ⟨hanswer', hstate'⟩ := untuned_perform heap' op
    rw [huntuned] at hanswer' hstate'
    have hinUse (heap : Heap φ) : heap.untuned.inUse r = heap.inUse r := by cases r <;> rfl
    have hsame := hstate'.symm.trans hstate
    rw [left_cons, left_cons, ih hsame, Op.left?, Op.left?, Op.cycle?, Op.cycle?, ← hanswer',
      hanswer, ← hinUse, hsame, hinUse]

end Heap

end MarkSweep
