import MarkSweep.Heap.Ledger
import MarkSweep.Proofs.Heap.Coloring

/-!
# Markings that end in a fault

A marking that meets a stale handle stops there and then, in the middle of its work, and leaves the
colours as they are at that moment. `Heap.MarkingLeaves` says what a heap looks like after a
marking, whether or not it was cut short: what was taken from the queue is Black, what waits there
is Gray, and all of it was White and reachable through White objects. Everything else is as it was.

A full collection whose marking ends in a fault goes no further (`Heap.AbandonsCycle`).
-/

namespace MarkSweep.Heap

variable {φ : Type} {heap : Heap φ} {roots : Roots} {h : Handle} {fault : Fault}

/-- **What a marking leaves behind**, with or without a fault. -/
structure MarkingLeaves (heap : Heap φ) (roots : List Handle) (after : Heap φ) : Prop where
  /-- The list, the free slots, payloads, charges, generations, finalizers, counters and totals
  stay. -/
  colorless_eq : after.colorless = heap.colorless
  /-- Handles leave the queue in the order in which they got there. -/
  queued_eq : heap.queued roots = heap.taken roots ++ heap.waiting roots
  /-- None gets there twice. -/
  queued_nodup : (heap.queued roots).Nodup
  /-- What gets there was White, and is found from the roots through White objects. -/
  queued_white : ∀ h ∈ heap.queued roots, heap.HasColor .white h ∧ heap.WhiteReachable roots h
  /-- What has left the queue is Black. -/
  taken_black : ∀ h ∈ heap.taken roots, after.HasColor .black h
  /-- What is still in it is Gray. -/
  waiting_gray : ∀ h ∈ heap.waiting roots, after.HasColor .gray h
  /-- What was not put into the queue is as it was. -/
  kept : ∀ h, h ∉ heap.queued roots → after.find? h = heap.find? h

/-- **A full collection that is abandoned** because of a fault. -/
structure AbandonsCycle (heap : Heap φ) (roots : Roots) (fault : Fault) : Prop where
  /-- The fault is the answer. -/
  answer_eq : (heap.collect roots).answer = .error fault
  /-- The heap is left as marking has left it. -/
  state_eq : (heap.collect roots).state = (heap.mark roots).state
  /-- Every object stays live. -/
  handles_eq : (heap.collect roots).state.handles = heap.handles
  /-- Nothing is released. -/
  released_eq : (Op.collect roots).released heap = []
  /-- No finalizer runs. -/
  finalized_eq : Event.finalizations (heap.collect roots).events = []
  /-- None is forgotten. -/
  finalizers_eq : (heap.collect roots).state.finalizers = heap.finalizers
  /-- The totals stay, the count of collections among them. -/
  stats_eq : (heap.collect roots).state.stats = heap.stats

/-- **What a marking leaves behind** follows from what it paints. -/
theorem markingLeaves (hdecode : heap.HeadersDecode) (roots : Roots) :
    heap.MarkingLeaves roots.toList (heap.mark roots).state := by
  have hp := painted_mark hdecode roots
  have hqueued := queued_eq hdecode roots.toList
  have hreach (k : Handle) (hk : k ∈ heap.queued roots.toList) :=
    whiteReachable_of_mem_queued hdecode hk
  exact ⟨hp.colorless_eq, hqueued, nodup_queued hdecode _,
    fun k hk => ⟨(hreach k hk).holds, hreach k hk⟩, hp.black, hp.gray, fun k hk =>
      hp.find?_other (fun j hj => (hreach j (hqueued ▸ hj)).holds.contains) (hqueued ▸ hk)⟩

theorem abandonsCycle (hdecode : heap.HeadersDecode)
    (hanswer : (heap.mark roots).answer = .error fault) : heap.AbandonsCycle roots fault := by
  rcases collect_cases heap roots with ⟨f, hfault, hresult, hstate⟩ | ⟨reached, hok, -, -⟩
  · obtain rfl := Except.error.inj (hfault.symm.trans hanswer)
    have hcolorless : (heap.collect roots).state.colorless = heap.colorless := by
      rw [hstate]
      exact colorless_mark hdecode roots
    have hevents : (heap.collect roots).events =
        [.collectionStarted heap.objectsAllocated heap.bytesAllocated roots.size] := by
      simp [collect, hfault]
    constructor
    case answer_eq => exact hresult
    case state_eq => exact hstate
    case handles_eq => exact handles_eq_of_skeleton_eq (skeleton_eq_of_colorless_eq hcolorless)
    case released_eq => rw [Op.released, hfault]
    case finalized_eq =>
      rw [hevents]
      rfl
    case finalizers_eq => exact (congrArg Heap.finalizers hcolorless :)
    case stats_eq => exact (congrArg Heap.stats hcolorless :)
  · rw [hanswer] at hok
    cases hok

/-- The fault of a marking names a stale handle that it met. -/
theorem exists_stale_of_fault (hdecode : heap.HeadersDecode)
    (hanswer : (heap.mark roots).answer = .error fault) :
    ∃ b, fault = .staleHandle b ∧ heap.contains b = false ∧
      (b ∈ roots.toList ∨ ∃ a, heap.WhiteReachable roots.toList a ∧ heap.Refers a b) := by
  rw [answer_mark] at hanswer
  rcases hresult : (Marking.fromRoots heap roots.toList).2 with _ | f
  · rw [hresult] at hanswer
    cases hanswer
  · rw [hresult] at hanswer
    obtain rfl := Except.error.inj hanswer
    obtain ⟨b, hstale, heq, hb⟩ := (Marking.fromRoots_spec hdecode roots.toList).2.2 f hresult
    exact ⟨b, heq, hstale, hb⟩

/-- A full collection has no faults but those of its marking. -/
theorem answer_mark_of_collect (hanswer : (heap.collect roots).answer = .error fault) :
    (heap.mark roots).answer = .error fault := by
  rcases collect_cases heap roots with ⟨f, hfault, hresult, -⟩ | ⟨reached, -, hresult, -⟩
  · rwa [← Except.error.inj (hresult.symm.trans hanswer)]
  · rw [hanswer] at hresult
    cases hresult

/-- **Markings and stale handles.** A marking ends in a fault exactly when it meets a stale handle,
which the fault names. In any case nothing but colours changes, and these as the queue says. A full
collection ends in a fault exactly when its marking does, and then it has done nothing else. -/
theorem mark_fault_iff (hi : heap.Intact) (roots : Roots) :
    ((∃ b, (heap.mark roots).answer = .error (.staleHandle b)) ↔ heap.MeetsStale roots.toList) ∧
    (∀ fault, (heap.mark roots).answer = .error fault →
      ∃ b, fault = .staleHandle b ∧ heap.contains b = false ∧
        (b ∈ roots.toList ∨ ∃ a, heap.WhiteReachable roots.toList a ∧ heap.Refers a b)) ∧
    heap.MarkingLeaves roots.toList (heap.mark roots).state ∧
    ∀ fault, (heap.collect roots).answer = .error fault →
      (heap.mark roots).answer = .error fault ∧ heap.AbandonsCycle roots fault := by
  have hdecode := hi.headersDecode
  refine ⟨⟨?_, fun hmeets => ?_⟩, fun fault hf => exists_stale_of_fault hdecode hf,
    markingLeaves hdecode roots, fun fault hf => ?_⟩
  · rintro ⟨b, hb⟩
    obtain ⟨k, -, hstale, hk⟩ := exists_stale_of_fault hdecode hb
    exact ⟨k, hstale, hk⟩
  · obtain ⟨f, hf⟩ := (exists_fault_iff hdecode).2 hmeets
    have hanswer : (heap.mark roots).answer = .error f := by
      rw [answer_mark, hf]
      rfl
    obtain ⟨b, rfl, -⟩ := exists_stale_of_fault hdecode hanswer
    exact ⟨b, hanswer⟩
  · have hanswer := answer_mark_of_collect hf
    exact ⟨hanswer, abandonsCycle hdecode hanswer⟩

/-- A pair was left with a stale reference. When that is met, the pair is Black and so is the one
before it in the queue, while the pair behind it waits. -/
theorem mark_fault_iff_stale_half :
    let heap := (ofConfig Config.standard : Heap Unit).run
      [.allocate (.pair none none) 40 none true, .mark ⟨none, [⟨0, 0⟩], []⟩,
        .allocate (.int 7) 32 none true, .store ⟨0, 0⟩ .lhs (some ⟨1, 0⟩),
        .collect ⟨none, [⟨0, 0⟩], []⟩, .allocate (.pair (some ⟨0, 0⟩) none) 40 (some ()) true,
        .allocate (.pair (some ⟨1, 1⟩) none) 40 none true]
    let roots : Roots := ⟨none, [⟨1, 1⟩, ⟨0, 0⟩, ⟨2, 0⟩], []⟩
    heap.Intact ∧ (heap.mark roots).answer = .error (.staleHandle ⟨1, 0⟩) ∧
      heap.MeetsStale roots.toList ∧ heap.taken roots.toList = [⟨1, 1⟩, ⟨0, 0⟩] ∧
      heap.waiting roots.toList = [⟨2, 0⟩] ∧
      heap.MarkingLeaves roots.toList (heap.mark roots).state ∧
      heap.AbandonsCycle roots (.staleHandle ⟨1, 0⟩) := by
  intro heap roots
  have hi : heap.Intact := intact_run Config.standard _
  have hanswer : (heap.mark roots).answer = .error (.staleHandle ⟨1, 0⟩) := by decide +kernel
  obtain ⟨hiff, -, hleaves, hcollect⟩ := mark_fault_iff hi roots
  exact ⟨hi, hanswer, hiff.1 ⟨_, hanswer⟩, by decide +kernel, by decide +kernel, hleaves,
    (hcollect _ (by decide +kernel)).2⟩

end MarkSweep.Heap
