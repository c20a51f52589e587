import MarkSweep.Heap.Traffic
import MarkSweep.Proofs.Heap.Tricolor

/-!
# The queue of a marking

What goes into the queue comes out in the same order. `Marking.Passes` says it of two moments of a
marking and the traffic between them, and adds that no slot changes but those of the objects that
were met. It holds of every step and is transitive, so it holds of the loop, whose traffic is that
of its rounds (`passes_drain`), and of a marking as a whole (`passes_fromRoots`).

Together with the tricolour invariant this settles what a marking leaves behind, down to the single
slot and whether or not it ends in a fault: the objects that were taken from the queue are Black,
those that wait there are Gray, and nothing else has changed (`painted_mark`).
-/

namespace MarkSweep

variable {φ : Type}

namespace Marking

variable {heap : Heap φ} {roots taken taken' queued queued' : List Handle}
  {m m' m'' : Marking φ} {h : Handle} {rest : Worklist}

/-- **From one moment of a marking to a later one.** What was in the queue and what was put there is
what was taken out and what is still there, in this order; what was taken out was reached; and away
from the objects met so far no slot has changed. -/
structure Passes (m m' : Marking φ) (taken queued : List Handle) : Prop where
  fifo : m.pending.toList ++ queued = taken ++ m'.pending.toList
  reached_eq : m'.reached = taken.reverse ++ m.reached
  untouched : ∀ i, (∀ h ∈ m'.found, h.slot ≠ i) → m'.heap.slots[i]? = m.heap.slots[i]?

namespace Passes

theorem refl (m : Marking φ) : Passes m m [] [] := ⟨by simp, rfl, fun _ _ => rfl⟩

/-- What was met stays met. -/
theorem found_subset (hp : Passes m m' taken queued) (hh : h ∈ m.found) : h ∈ m'.found := by
  rw [found, hp.reached_eq]
  rcases List.mem_append.1 hh with hh | hh
  · exact List.mem_append_left _ (List.mem_append_right _ hh)
  · have hmem : h ∈ taken ++ m'.pending.toList := hp.fifo ▸ List.mem_append_left queued hh
    rcases List.mem_append.1 hmem with hmem | hmem
    · exact List.mem_append_left _ (List.mem_append_left _ (List.mem_reverse.2 hmem))
    · exact List.mem_append_right _ hmem

theorem trans (hp : Passes m m' taken queued) (hp' : Passes m' m'' taken' queued') :
    Passes m m'' (taken ++ taken') (queued ++ queued') where
  fifo := by
    rw [← List.append_assoc, hp.fifo, List.append_assoc, hp'.fifo, List.append_assoc]
  reached_eq := by
    rw [hp'.reached_eq, hp.reached_eq, List.reverse_append, List.append_assoc]
  untouched := fun i hi =>
    (hp'.untouched i hi).trans (hp.untouched i fun h hh => hi h (hp'.found_subset hh))

/-- As long as nothing is taken from the queue, what was put there is what has come after. -/
theorem queued_eq (hp : Passes m m' [] queued) : queued = m'.queuedAfter m.pending.size := by
  have hpending : m'.pending.toList = m.pending.toList ++ queued := hp.fifo.symm
  rw [queuedAfter, hpending, ← Worklist.length_toList, List.drop_left]

end Passes

/-! ### Steps -/

theorem exists_passes_shade (m : Marking φ) (h : Handle) :
    ∃ queued, Passes m (m.shade h).1 [] queued := by
  unfold shade
  split
  · exact ⟨[], .refl m⟩
  · split
    · exact ⟨[], .refl m⟩
    · refine ⟨[h], by simp, rfl, fun i hi => ?_⟩
      have hne : h.slot ≠ i := hi h (List.mem_append_right _ (by simp))
      exact (Heap.getElem?_updateSlot ..).trans (if_neg hne)
    · exact ⟨[], .refl m⟩

/-- Shading puts handles into the queue and takes none out. -/
theorem passes_shadeAll (m : Marking φ) (hs : List Handle) :
    Passes m (m.shadeAll hs).1 [] ((m.shadeAll hs).1.queuedAfter m.pending.size) := by
  have hexists : ∃ queued, Passes m (m.shadeAll hs).1 [] queued := by
    induction hs generalizing m with
    | nil => exact ⟨[], .refl m⟩
    | cons h hs ih =>
      obtain ⟨queued, hone⟩ := exists_passes_shade m h
      unfold shadeAll
      rcases hshade : m.shade h with ⟨m', _ | fault⟩
      · rw [hshade] at hone
        obtain ⟨more, hrest⟩ := ih m'
        exact ⟨queued ++ more, hone.trans hrest⟩
      · rw [hshade] at hone
        exact ⟨queued, hone⟩
  obtain ⟨queued, hp⟩ := hexists
  exact hp.queued_eq ▸ hp

/-- The handle in front is taken from the queue, and its object turns Black. -/
theorem passes_take (hpop : m.pending.pop? = some (h, rest)) :
    Passes m (({ m with pending := rest } : Marking φ).blacken h) [h] [] where
  fifo := by
    rw [Worklist.toList_of_pop? hpop, List.append_nil]
    rfl
  reached_eq := rfl
  untouched := fun i hi =>
    (Heap.getElem?_updateSlot ..).trans (if_neg (hi h List.mem_cons_self))

/-- **One round** takes the handle in front, and puts the handles there that it says. -/
theorem passes_visit (hdecode : heap.HeadersDecode) (hm : Tricolor heap roots m)
    (hpop : m.pending.pop? = some (h, rest)) {o : Marking φ × Option Fault}
    (ho : ({ m with pending := rest } : Marking φ).visit h = o) :
    Passes m o.1 [h] (o.1.queuedAfter rest.size) := by
  have hgray := hm.gray h (by simp [Worklist.toList_of_pop? hpop])
  obtain ⟨slot, hfind, -⟩ := hgray
  obtain ⟨tag, htag⟩ := hm.exists_tag hdecode hfind
  obtain ⟨refs, heq, -⟩ := exists_visit_eq (m := { m with pending := rest }) hfind htag
  rw [← ho, heq]
  exact (passes_take hpop).trans (passes_shadeAll _ refs)

/-! ### The loop -/

theorem rounds_of_pop?_eq_none (hpop : m.pending.pop? = none) : m.rounds = [] := by
  rw [rounds]
  split
  · rfl
  · rename_i hsome
    rw [hpop] at hsome
    cases hsome

theorem rounds_of_pop?_eq_some (hpop : m.pending.pop? = some (h, rest)) :
    m.rounds = match ({ m with pending := rest } : Marking φ).visit h with
      | (m', some _) => [(h, m'.queuedAfter rest.size)]
      | (m', none) => (h, m'.queuedAfter rest.size) :: m'.rounds := by
  rw [rounds]
  split
  · rename_i hnone
    rw [hpop] at hnone
    cases hnone
  · rename_i h' rest' hsome
    rw [hpop, Option.some.injEq, Prod.mk.injEq] at hsome
    obtain ⟨rfl, rfl⟩ := hsome
    split <;> rename_i hvisit <;> rw [hvisit]

/-- **The loop** passes through its rounds. -/
theorem passes_drain (hdecode : heap.HeadersDecode) (hm : Tricolor heap roots m)
    (htraced : Traced heap m) :
    Passes m m.drain.1 (m.rounds.map Prod.fst) (m.rounds.flatMap Prod.snd) := by
  -- the induction is on the weight, which every visit lowers
  induction hn : m.weight using Nat.strongRecOn generalizing m with
  | ind n ih =>
    rcases hpop : m.pending.pop? with _ | ⟨h, rest⟩
    · rw [drain_of_pop?_eq_none hpop, rounds_of_pop?_eq_none hpop]
      exact .refl m
    · have hlt := weight_visit_lt hpop
      rw [drain_of_pop?_eq_some hpop, rounds_of_pop?_eq_some hpop]
      rcases hvisit : ({ m with pending := rest } : Marking φ).visit h with ⟨m', _ | fault⟩
      · have hone := passes_visit hdecode hm hpop hvisit
        obtain ⟨hm', -, htraced', -⟩ := visit_spec hdecode hm htraced hpop hvisit
        rw [hvisit, hn] at hlt
        exact hone.trans (ih m'.weight hlt hm' (htraced' rfl) rfl)
      · have hone := passes_visit hdecode hm hpop hvisit
        simpa using hone

/-- **A marking from roots** takes from its queue what it put there, in order. -/
theorem passes_fromRoots (hdecode : heap.HeadersDecode) (roots : List Handle) :
    Passes ⟨heap, Worklist.empty, []⟩ (fromRoots heap roots).1 (heap.taken roots)
      (heap.queued roots) := by
  have hroots := passes_shadeAll ⟨heap, Worklist.empty, []⟩ roots
  have hshaded := shadeAll_spec hdecode (Tricolor.start heap roots)
    fun r hr hwhite => Heap.ReachableBy.root hr hwhite
  unfold fromRoots Heap.taken Heap.queued
  rcases hshade : shadeAll ⟨heap, Worklist.empty, []⟩ roots with ⟨m, _ | fault⟩
  · rw [hshade] at hroots hshaded
    have htraced : Traced heap m := by
      intro a ha
      rw [hshaded.reached_eq] at ha
      cases ha
    exact hroots.trans (passes_drain hdecode hshaded.tricolor htraced)
  · rw [hshade] at hroots
    exact hroots

end Marking

/-! ### The traffic of a marking -/

namespace Heap

variable {heap after after' : Heap φ} {roots blacks blacks' grays grays' : List Handle}
  {h : Handle} {c : Color}

section Traffic

variable (hdecode : heap.HeadersDecode)
include hdecode

/-- What was put into the queue was taken out, as far as it does not wait there still. -/
theorem queued_eq (roots : List Handle) :
    heap.queued roots = heap.taken roots ++ heap.waiting roots :=
  (Marking.passes_fromRoots hdecode roots).fifo

theorem reached_fromRoots (roots : List Handle) :
    (Marking.fromRoots heap roots).1.reached = (heap.taken roots).reverse :=
  (Marking.passes_fromRoots hdecode roots).reached_eq.trans (List.append_nil _)

/-- What was met is what was put into the queue. -/
theorem perm_queued (roots : List Handle) :
    (Marking.fromRoots heap roots).1.found.Perm (heap.queued roots) := by
  rw [Marking.found, reached_fromRoots hdecode, queued_eq hdecode]
  exact (List.reverse_perm _).append_right _

/-- No handle is put into the queue twice. -/
theorem nodup_queued (roots : List Handle) : (heap.queued roots).Nodup :=
  (perm_queued hdecode roots).nodup_iff.1 (Marking.fromRoots_spec hdecode roots).1.nodup

/-- Only what is reachable through White objects is put into the queue. -/
theorem whiteReachable_of_mem_queued (hh : h ∈ heap.queued roots) :
    heap.WhiteReachable roots h :=
  (Marking.fromRoots_spec hdecode roots).1.reachable h ((perm_queued hdecode roots).mem_iff.2 hh)

end Traffic

/-! ### What a marking leaves behind -/

/-- **A heap painted in part**: some objects are Black and some are Gray now, and nothing else has
changed. -/
structure Painted (heap after : Heap φ) (blacks grays : List Handle) : Prop where
  colorless_eq : after.colorless = heap.colorless
  black : ∀ h ∈ blacks, after.HasColor .black h
  gray : ∀ h ∈ grays, after.HasColor .gray h
  other : ∀ i, (∀ h ∈ blacks ++ grays, h.slot ≠ i) → after.slots[i]? = heap.slots[i]?

/-- An object of a certain colour is the same in that colour as it was in any other. -/
theorem getElem?_of_hasColor (hc : after.colorless = heap.colorless) (hcolor : after.HasColor c h) :
    after.slots[h.slot]? = heap.slots[h.slot]?.map (Slot.recolor c) := by
  obtain ⟨slot, hfind, hcolor⟩ := hcolor
  obtain ⟨old, hold, heq⟩ := find?_of_colorless_eq hc hfind
  rw [(find?_eq_some_iff.1 hfind).1, (find?_eq_some_iff.1 hold).1, Option.map_some,
    ← Slot.recolor_recolor c .white old, ← heq, Slot.recolor_recolor,
    Slot.recolor_eq_self hcolor]

/-- **A marking paints** what it took from its queue Black, and what waits there Gray. -/
theorem painted_mark (hdecode : heap.HeadersDecode) (roots : Roots) :
    heap.Painted (heap.mark roots).state (heap.taken roots.toList)
      (heap.waiting roots.toList) := by
  have hm := (Marking.fromRoots_spec hdecode roots.toList).1
  have hreached := reached_fromRoots hdecode roots.toList
  have hfound := perm_queued hdecode roots.toList
  rw [queued_eq hdecode] at hfound
  rw [state_mark]
  refine ⟨hm.colorless_eq, fun h hh => hm.black h ?_, hm.gray, fun i hi => ?_⟩
  · rw [hreached]
    exact List.mem_reverse.2 hh
  · exact (Marking.passes_fromRoots hdecode roots.toList).untouched i
      fun h hh => hi h (hfound.mem_iff.1 hh)

namespace Painted

/-- What was painted determines the heap, in whatever order it was. -/
theorem unique (hp : heap.Painted after blacks grays) (hp' : heap.Painted after' blacks' grays')
    (hblacks : ∀ h, h ∈ blacks ↔ h ∈ blacks') (hgrays : ∀ h, h ∈ grays ↔ h ∈ grays') :
    after = after' := by
  have hslots : after.slots = after'.slots := by
    refine Array.ext_getElem? fun i => ?_
    by_cases hmem : ∃ h ∈ blacks ++ grays, h.slot = i
    · obtain ⟨h, hh, rfl⟩ := hmem
      rcases List.mem_append.1 hh with hh | hh
      · rw [getElem?_of_hasColor hp.colorless_eq (hp.black h hh),
          getElem?_of_hasColor hp'.colorless_eq (hp'.black h ((hblacks h).1 hh))]
      · rw [getElem?_of_hasColor hp.colorless_eq (hp.gray h hh),
          getElem?_of_hasColor hp'.colorless_eq (hp'.gray h ((hgrays h).1 hh))]
    · have hother (h : Handle) (hh : h ∈ blacks ++ grays) : h.slot ≠ i :=
        fun heq => hmem ⟨h, hh, heq⟩
      rw [hp.other i hother, hp'.other i]
      intro h hh
      rw [List.mem_append, ← hblacks, ← hgrays, ← List.mem_append] at hh
      exact hother h hh
  -- apart from their slots both heaps are the one that was painted
  have hrest : { after.colorless with slots := after.slots } =
      { after'.colorless with slots := after'.slots } := by
    rw [hslots, hp.colorless_eq, hp'.colorless_eq]
  exact hrest

variable (hp : heap.Painted after blacks grays)
include hp

/-- An object that was not painted is as it was. -/
theorem find?_other (hlive : ∀ k ∈ blacks ++ grays, heap.contains k) (hh : h ∉ blacks ++ grays) :
    after.find? h = heap.find? h := by
  by_cases hmem : ∃ k ∈ blacks ++ grays, k.slot = h.slot
  · -- another handle of the slot of a painted object is stale before and after
    obtain ⟨k, hk, hslot⟩ := hmem
    have hne : h ≠ k := fun heq => hh (heq ▸ hk)
    have hlive' : after.contains k := by
      rw [contains_eq_of_skeleton_eq (skeleton_eq_of_colorless_eq hp.colorless_eq) k]
      exact hlive k hk
    rw [find?_eq_none_of_slot_eq (hlive k hk) hslot hne, find?_eq_none_of_slot_eq hlive' hslot hne]
  · rw [find?, hp.other h.slot fun k hk heq => hmem ⟨k, hk, heq⟩, find?]

end Painted

end Heap

end MarkSweep
