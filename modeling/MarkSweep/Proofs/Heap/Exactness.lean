import MarkSweep.Proofs.Heap.Representation

/-!
# A full collection is exact

When every live object is White and nothing that is reachable is stale, a full collection ends
without a fault, and what it keeps is what is reachable. `Heap.CollectsExactly` lists what that
comes to: which objects are live afterwards, how they look, in which order they stand in the list,
and what the collection answers. The two halves are `exact_mark`, from the tricolour invariant, and
what is known of a sweep; `collect_exact` puts them together for a heap that keeps the
representation invariant, and `collect_exact_run` for every state that a history leads to.
-/

namespace MarkSweep.Heap

variable {φ : Type} {heap : Heap φ} {roots : Roots} {h k : Handle}

/-- Every live object is White. -/
def AllWhite (heap : Heap φ) : Prop := ∀ h, heap.contains h → heap.HasColor .white h

/-- Nothing that is reachable is stale. -/
def ReachesLive (heap : Heap φ) (roots : List Handle) : Prop :=
  ∀ h, heap.Reachable roots h → heap.contains h

/-- What a live object refers to is live. -/
def Closed (heap : Heap φ) : Prop :=
  ∀ a object, heap.get? a = some object → ∀ b ∈ object.references, heap.contains b

/-- From live roots nothing stale is reached in a closed heap. -/
theorem Closed.reachesLive (hc : heap.Closed) {rs : List Handle}
    (hroots : ∀ r ∈ rs, heap.contains r) : heap.ReachesLive rs := by
  intro h hr
  refine hr.mem_of_closed (fun k hk _ => hroots k hk) fun a b _ hab _ => ?_
  obtain ⟨slot, -, object, hfind, -, -, hobject, hb⟩ := hab
  exact hc a object (get?_of_find? hfind hobject) b hb

/-- The object of `h` is live in both heaps, and the same there but for its link. -/
def Keeps (heap after : Heap φ) (h : Handle) : Prop :=
  ∃ slot next, heap.find? h = some slot ∧ after.find? h = some { slot with next := next }

open Classical in
/-- The live objects that are reachable, newest first. -/
noncomputable def reachables (heap : Heap φ) (roots : List Handle) : List Handle :=
  heap.handles.filter fun h => decide (heap.Reachable roots h)

open Classical in
/-- The live objects that are not reachable, newest first. -/
noncomputable def unreachables (heap : Heap φ) (roots : List Handle) : List Handle :=
  heap.handles.filter fun h => !decide (heap.Reachable roots h)

/-- **An exact collection** from one heap to another. -/
structure CollectsExactly (heap : Heap φ) (roots : Roots) (after : Heap φ) (cycle : CycleStats) :
    Prop where
  /-- What was live stays exactly when it is reachable, and nothing else becomes live. -/
  contains_iff : ∀ h, after.contains h ↔ heap.contains h ∧ heap.Reachable roots.toList h
  /-- The survivors are in the list in the order in which they were there. -/
  handles_eq : after.handles = heap.reachables roots.toList
  /-- Payload, header, charge and generation of a survivor are as they were. -/
  keeps : ∀ h, heap.Reachable roots.toList h → heap.Keeps after h
  /-- A survivor keeps its finalizer. -/
  finalizers_eq : ∀ h, heap.Reachable roots.toList h → after.finalizers[h]? = heap.finalizers[h]?
  /-- Every survivor is White again. -/
  allWhite : after.AllWhite
  /-- The survivors are those that were marked. -/
  objectsMarked : cycle.objectsMarked.toNat = (heap.reachables roots.toList).length
  /-- The others are counted as they are freed. -/
  objectsFreed : cycle.sweep.objectsFreed.toNat = (heap.unreachables roots.toList).length
  /-- Their charges are added up, in a word. -/
  bytesFreed : cycle.sweep.bytesFreed =
    UInt64.ofNat (heap.charges (heap.unreachables roots.toList))
  /-- The sum is the true one as long as all charges together fit in a word. -/
  toNat_bytesFreed : heap.totalCharge < UInt64.size →
    cycle.sweep.bytesFreed.toNat = heap.charges (heap.unreachables roots.toList)
  /-- The finalizers of what is freed are counted as they run. -/
  finalizersRun : cycle.sweep.finalizersRun.toNat =
    (heap.unreachables roots.toList).countP heap.finalizers.contains

/-! ### Marking -/

/-- Where all that is reachable is White, it is reachable through White objects. -/
theorem whiteReachable_of_white {rs : List Handle}
    (hwhite : ∀ k, heap.Reachable rs k → heap.HasColor .white k) (hr : heap.Reachable rs h) :
    heap.WhiteReachable rs h := by
  induction hr with
  | root mem _ => exact .root mem (hwhite _ (.root mem trivial))
  | step reach refers _ ih => exact .step ih refers (hwhite _ (.step reach refers trivial))

theorem AllWhite.whiteReachable_iff (hwhite : heap.AllWhite) {rs : List Handle}
    (hlive : heap.ReachesLive rs) : heap.WhiteReachable rs h ↔ heap.Reachable rs h :=
  ⟨fun hr => hr.mono (fun _ _ => trivial) fun _ hk => hk,
    whiteReachable_of_white fun k hk => hwhite k (hlive k hk)⟩

theorem mem_reachables_iff (hw : heap.WellFormed) {rs : List Handle}
    (hlive : heap.ReachesLive rs) : h ∈ heap.reachables rs ↔ heap.Reachable rs h := by
  classical
  rw [reachables, List.mem_filter, hw.mem_handles_iff, decide_eq_true_eq]
  exact ⟨And.right, fun hr => ⟨hlive h hr, hr⟩⟩

/-- **Marking is exact**: what is Black after it is what is reachable, and it counts that. -/
theorem exact_mark (hi : heap.Intact) (hwhite : heap.AllWhite)
    (hlive : heap.ReachesLive roots.toList) :
    (heap.mark roots).answer = .ok (UInt64.ofNat (heap.reachables roots.toList).length) ∧
      ∀ k, (heap.mark roots).state.isBlack k ↔ heap.Reachable roots.toList k := by
  have hreach (k : Handle) : heap.WhiteReachable roots.toList k ↔ heap.Reachable roots.toList k :=
    hwhite.whiteReachable_iff hlive
  obtain ⟨reached, hnodup, hmem, hanswer, hblack, hother⟩ := mark_spec hi.headersDecode
    (fun r hr => hlive r (.root hr trivial))
    fun a b ha hab => hlive b (.step ((hreach a).1 ha) hab trivial)
  constructor
  · have hperm : reached.Perm (heap.reachables roots.toList) := by
      have hnodup' : (heap.reachables roots.toList).Nodup := hi.wellFormed.handles_nodup.filter _
      refine (List.perm_ext_iff_of_nodup hnodup hnodup').2 fun k => ?_
      rw [hmem, hreach]
      exact (mem_reachables_iff hi.wellFormed hlive).symm
    rw [hanswer, hperm.length_eq]
  · intro k
    rw [isBlack_iff, ← hreach, ← hmem]
    refine ⟨fun hk => ?_, hblack k⟩
    -- an object that was not reached has the colour that it had, which is White
    by_cases hk' : k ∈ reached
    · exact hk'
    · have hold := (hother k hk' .black).1 hk
      cases hold.unique (hwhite k hold.contains)

/-! ### The whole collection -/

theorem allWhite_sweep (hw : heap.WellFormed) : heap.sweep.state.AllWhite := by
  intro k hk
  obtain ⟨slot, -, hfind, -⟩ := exists_find?_of_contains hk
  obtain ⟨old, -, hheader⟩ := header_of_find?_sweep hw hfind
  exact ⟨slot, hfind, by rw [hheader, Header.color_setColor]⟩

section Collect

variable (hi : heap.Intact) (hwhite : heap.AllWhite) (hlive : heap.ReachesLive roots.toList)
include hi hwhite hlive

/-- A survivor gets another link at most. -/
theorem keeps_sweep_mark (hk : heap.Reachable roots.toList k) :
    heap.Keeps (heap.mark roots).state.sweep.state k := by
  -- marking and sweeping change its colour to Black and back to the White that it was
  have hblack := ((exact_mark hi hwhite hlive).2 k).2 hk
  have hsweep := find?_sweep (hi.mark roots).wellFormed hblack
  obtain ⟨slot, hfind, hcolor⟩ := hwhite k (hlive k hk)
  obtain ⟨old, hold, heq⟩ :=
    find?_of_colorless_eq (colorless_mark hi.headersDecode roots).symm hfind
  rw [Slot.recolor_eq_self hcolor] at heq
  rw [hold, Option.map_some, ← heq, Option.map_eq_some_iff] at hsweep
  obtain ⟨new, hnew, hdetached⟩ := hsweep
  exact ⟨slot, new.next, hfind, hnew.trans (congrArg some (Slot.eq_of_detached_eq hdetached))⟩

/-- Marking and sweeping are exact. -/
theorem sweep_mark_exact : heap.CollectsExactly roots (heap.mark roots).state.sweep.state
    ⟨(heap.mark roots).state.sweep.stats,
      UInt64.ofNat (heap.reachables roots.toList).length⟩ := by
  classical
  obtain ⟨-, hblack⟩ := exact_mark hi hwhite hlive
  have hskeleton := skeleton_eq_of_colorless_eq (colorless_mark hi.headersDecode roots)
  have hhandles := handles_eq_of_skeleton_eq hskeleton
  have hcharges := charges_eq_of_skeleton_eq hskeleton
  have hfinalizers : (heap.mark roots).state.finalizers = heap.finalizers :=
    (congrArg Heap.finalizers hskeleton :)
  have hwell := (hi.mark roots).wellFormed
  have hkept : heap.handles.filter (heap.mark roots).state.isBlack =
      heap.reachables roots.toList := by
    refine List.filter_congr fun k _ => ?_
    rw [Bool.eq_iff_iff, hblack, decide_eq_true_eq]
  have hfreed : heap.handles.filter (heap.mark roots).state.isDoomed =
      heap.unreachables roots.toList := by
    refine List.filter_congr fun k _ => ?_
    rw [isDoomed, Bool.not_inj_iff, Bool.eq_iff_iff, hblack, decide_eq_true_eq]
  have hcontains (k : Handle) : (heap.mark roots).state.sweep.state.contains k ↔
      heap.contains k ∧ heap.Reachable roots.toList k := by
    rw [contains_sweep hwell, hblack]
    exact ⟨fun hk => ⟨hlive k hk, hk⟩, And.right⟩
  have htotal : (heap.mark roots).state.totalCharge = heap.totalCharge := by
    rw [totalCharge, hhandles, hcharges, totalCharge]
  refine ⟨hcontains, ?_, fun k hk => keeps_sweep_mark hi hwhite hlive hk, ?_,
    allWhite_sweep hwell, ?_, ?_, ?_, fun hfit => ?_, ?_⟩
  · rw [handles_sweep hwell, hhandles, hkept]
  · intro k hk
    rw [finalizers_sweep hwell ((hblack k).2 hk), hfinalizers]
  · exact hi.wellFormed.toNat_ofNat (List.length_filter_le _ _)
  · rw [toNat_objectsFreed_sweep hwell, hhandles, hfreed]
  · rw [stats_sweep hwell, hhandles, hfreed, hcharges]
  · rw [toNat_bytesFreed_sweep hwell (htotal ▸ hfit), hhandles, hfreed, hcharges]
  · rw [toNat_finalizersRun_sweep hwell, hhandles, hfreed, hfinalizers]

omit hi hwhite hlive in
/-- The thresholds and the count of collections do not matter. -/
theorem CollectsExactly.adjusted {after : Heap φ} {cycle : CycleStats}
    (hc : heap.CollectsExactly roots after cycle) :
    heap.CollectsExactly roots after.adjustThresholds.countCollection cycle :=
  ⟨hc.contains_iff, hc.handles_eq, hc.keeps, hc.finalizers_eq, hc.allWhite, hc.objectsMarked,
    hc.objectsFreed, hc.bytesFreed, hc.toNat_bytesFreed, hc.finalizersRun⟩

/-- **A full collection is exact.** -/
theorem collect_exact : ∃ cycle, (heap.collect roots).answer = .ok cycle ∧
    heap.CollectsExactly roots (heap.collect roots).state cycle := by
  have hanswer := (exact_mark hi hwhite hlive).1
  rcases collect_cases heap roots with ⟨fault, hfault, -, -⟩ | ⟨reached, hreached, hresult, hstate⟩
  · rw [hanswer] at hfault
    cases hfault
  · obtain rfl := Except.ok.inj (hreached.symm.trans hanswer)
    refine ⟨_, hresult, ?_⟩
    rw [hstate]
    exact (sweep_mark_exact hi hwhite hlive).adjusted

end Collect

/-- **Exactness in every state.** In whatever way a heap came about, if its live objects are White
and nothing that the roots reach is stale, then a full collection ends without a fault and is
exact. -/
theorem collect_exact_run (config : Config) (ops : List (Op φ)) (roots : Roots)
    (hwhite : ((ofConfig config : Heap φ).run ops).AllWhite)
    (hlive : ((ofConfig config : Heap φ).run ops).ReachesLive roots.toList) :
    ∃ cycle, (((ofConfig config : Heap φ).run ops).collect roots).answer = .ok cycle ∧
      ((ofConfig config : Heap φ).run ops).CollectsExactly roots
        (((ofConfig config : Heap φ).run ops).collect roots).state cycle :=
  collect_exact (intact_run config ops) hwhite hlive

/-- To look through the list is enough. -/
theorem WellFormed.allWhite_of_handles (hw : heap.WellFormed)
    (hlist : ∀ h ∈ heap.handles, (heap.find? h).any Slot.isWhite) : heap.AllWhite := by
  intro h hh
  have hwhite := hlist h (hw.listed h hh)
  obtain ⟨slot, -, hfind, -⟩ := exists_find?_of_contains hh
  rw [hfind, Option.any_some, Slot.isWhite, Header.hasColor_iff] at hwhite
  exact ⟨slot, hfind, hwhite⟩

theorem WellFormed.closed_of_handles (hw : heap.WellFormed)
    (hlist : ∀ h ∈ heap.handles, ∀ object ∈ heap.get? h, ∀ b ∈ object.references,
      heap.contains b) : heap.Closed := by
  intro a object hget b hb
  exact hlist a (hw.listed a (contains_of_get? hget)) object hget b hb

/-- Two pairs that refer to each other stay for the sake of one root given twice, and a tagged value
that refers to them goes. -/
theorem collect_exact_run_cycle :
    let heap := (ofConfig Config.standard : Heap Unit).run
      [.allocate (.pair none none) 40 none true,
        .allocate (.pair (some ⟨0, 0⟩) (some ⟨0, 0⟩)) 40 (some ()) true,
        .store ⟨0, 0⟩ .lhs (some ⟨1, 0⟩),
        .allocate (.tagged 3 (some ⟨0, 0⟩)) 24 (some ()) true]
    let roots : Roots := ⟨none, [⟨1, 0⟩, ⟨1, 0⟩], []⟩
    heap.AllWhite ∧ heap.ReachesLive roots.toList ∧
      ∃ cycle, (heap.collect roots).answer = .ok cycle ∧
        heap.CollectsExactly roots (heap.collect roots).state cycle := by
  intro heap roots
  have hw : heap.WellFormed := (intact_run Config.standard _).wellFormed
  have hwhite : heap.AllWhite := hw.allWhite_of_handles (by decide)
  have hclosed : heap.Closed := hw.closed_of_handles (by decide)
  have hlive : heap.ReachesLive roots.toList := hclosed.reachesLive (by decide)
  exact ⟨hwhite, hlive, collect_exact_run Config.standard _ roots hwhite hlive⟩

end MarkSweep.Heap
