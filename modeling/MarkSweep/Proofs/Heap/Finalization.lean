import Mathlib.Algebra.GroupWithZero.Nat
import MarkSweep.Proofs.Heap.Accounting

/-!
# Finalizers run exactly once

A finalizer that is registered is outstanding until it runs. Calls conserve finalizers: those that
ran and those that are outstanding are, together, those that were outstanding or registered
(`Intact.outstanding_run`). So in a history that leaves none outstanding the runs are the
registrations in another order, and each of them takes place in the call that releases the object
(`Intact.finalizesAtRelease`). Giving up a heap leaves none outstanding (`Intact.isEmpty_closing`).

No bound on the number of releases is needed here, since a finalizer is gone before its handle can
be given out again.
-/

namespace MarkSweep.Heap

variable {φ : Type} {heap : Heap φ} {h : Handle} {op : Op φ} {tag : Tag} {size : UInt64}
  {object : Object} {finalizer : φ}

/-! ### Conservation -/

/-- The registration of the finalizer that a handle has. -/
def registrationOf? (heap : Heap φ) (h : Handle) : Option (Handle × φ) :=
  heap.finalizers[h]?.map fun finalizer => (h, finalizer)

/-- The finalizers that have not run, with the handles of their objects. -/
def outstanding (heap : Heap φ) : List (Handle × φ) := heap.handles.filterMap heap.registrationOf?

theorem registration_finalizationOf? (hlive : heap.contains h) :
    (heap.finalizationOf? h).map Finalization.registration = heap.registrationOf? h := by
  obtain ⟨object, hget⟩ := exists_get?_of_contains hlive
  rw [finalizationOf?, finalization?_eq, hget, registrationOf?]
  rcases heap.finalizers[h]? with _ | finalizer <;> rfl

theorem outstanding_eq_nil (hempty : heap.finalizers.isEmpty) : heap.outstanding = [] := by
  refine List.filterMap_eq_nil_iff.2 fun h _ => ?_
  rw [registrationOf?, Std.TreeMap.getElem?_of_isEmpty hempty, Option.map_none]

theorem exists_mem_outstanding (hw : heap.WellFormed) (hmem : (h, finalizer) ∈ heap.outstanding) :
    heap.contains h ∧ heap.finalizers[h]? = some finalizer := by
  obtain ⟨k, hk, heq⟩ := List.mem_filterMap.1 hmem
  obtain ⟨f, hf, heq⟩ := Option.map_eq_some_iff.1 heq
  obtain ⟨rfl, rfl⟩ := Prod.mk.inj heq
  exact ⟨hw.live k hk, hf⟩

namespace Intact

section Call

variable (hi : heap.Intact) (op : Op φ)
include hi

theorem toList_registered : (op.registered heap).toList =
    (op.issued heap).toList.filterMap (op.perform heap).state.registrationOf? := by
  rw [Op.registered]
  rcases hissued : op.issued heap with _ | h
  · rfl
  · have hself := hi.finalizers_perform op h
    rw [if_pos hissued] at hself
    rw [Option.bind_some, Option.toList_some, List.filterMap_cons, registrationOf?, hself]
    rcases op.finalizer? with _ | finalizer <;> rfl

/-- What stays keeps its finalizer. -/
theorem registrationOf?_perform (hlive : heap.contains h) (hstays : h ∉ op.released heap) :
    (op.perform heap).state.registrationOf? h = heap.registrationOf? h := by
  rw [registrationOf?, hi.finalizers_perform, if_neg (hi.issued_ne op hlive), if_neg hstays,
    registrationOf?]

/-- **One call** conserves finalizers. -/
theorem outstanding_perform :
    ((op.finalized heap).map Finalization.registration ++ (op.perform heap).state.outstanding).Perm
      (heap.outstanding ++ (op.registered heap).toList) := by
  obtain ⟨goes, hreleased, hhandles⟩ := hi.exists_partition op
  have hruns : (op.finalized heap).map Finalization.registration =
      (heap.handles.filter goes).filterMap heap.registrationOf? := by
    rw [hi.finalized_perform, hreleased, List.map_filterMap]
    refine List.filterMap_congr fun k hk => registration_finalizationOf? ?_
    exact hi.wellFormed.live k (List.mem_filter.1 hk).1
  have hleft : (op.perform heap).state.outstanding = (op.registered heap).toList ++
      (heap.handles.filter fun k => !goes k).filterMap heap.registrationOf? := by
    rw [outstanding, hhandles, List.filterMap_append, hi.toList_registered]
    refine congrArg _ (List.filterMap_congr fun k hk => ?_)
    obtain ⟨hk, hstays⟩ := List.mem_filter.1 hk
    refine hi.registrationOf?_perform op (hi.wellFormed.live k hk) fun hgoes => ?_
    rw [hreleased] at hgoes
    simp [(List.mem_filter.1 hgoes).2] at hstays
  -- what goes and what stays is all there was, in another order
  have hparts := (List.filter_append_perm goes heap.handles).filterMap heap.registrationOf?
  rw [List.filterMap_append] at hparts
  rw [hruns, hleft]
  refine (List.perm_append_comm.append_left _).trans ?_
  rw [← List.append_assoc]
  exact hparts.append_right _

end Call

variable (hi : heap.Intact) (ops : List (Op φ))
include hi

/-- **A history** conserves finalizers. -/
theorem outstanding_run : ((heap.finalized ops).map Finalization.registration ++
    (heap.run ops).outstanding).Perm (heap.outstanding ++ heap.registered ops) := by
  induction ops generalizing heap with
  | nil => exact .of_eq (List.append_nil _).symm
  | cons op ops ih =>
    have hfirst := hi.outstanding_perform op
    have hrest := ih (hi.perform op)
    rw [finalized_cons, registered_cons, List.map_append, List.append_assoc, run_cons]
    refine (hrest.append_left _).trans ?_
    rw [← List.append_assoc, ← List.append_assoc]
    exact hfirst.append_right _

/-- The sweeps of a history answer, together, how many finalizers run in it. -/
theorem sum_finalizersRun : ((heap.sweeps ops).map fun s => s.finalizersRun.toNat).sum =
    (heap.finalized ops).length := by
  induction ops generalizing heap with
  | nil => rfl
  | cons op ops ih =>
    have hfirst := hi.finalizersRun_perform op
    have hrest := ih (hi.perform op)
    rw [sweeps_cons, finalized_cons, List.map_append, List.sum_append, List.length_append, hrest,
      ← hfirst]
    rcases op.sweep? heap with _ | stats <;> simp

end Intact

/-! ### The call that releases an object -/

/-- What a history does about the finalizer of an object that is live at its beginning: it runs in
the call that releases the object, which is a sweep, with the handle and the payload that the object
has then; neither is the object released nor does its finalizer run before that call; and after it
a finalizer that runs with that handle was registered later. -/
def FinalizesAtRelease (heap : Heap φ) (h : Handle) (finalizer : φ) (object : Object)
    (ops : List (Op φ)) : Prop :=
  ∃ before op rest, ops = before ++ op :: rest ∧
    h ∉ heap.released before ∧ (∀ run ∈ heap.finalized before, run.handle ≠ h) ∧
    h ∈ op.released (heap.run before) ∧ (op.sweep? (heap.run before)).isSome ∧
    (heap.run before).get? h = some (heap.payload h object before) ∧
    (op.finalized (heap.run before)).filter (fun run => run.handle = h) =
      [⟨finalizer, h, heap.payload h object before⟩] ∧
    ∀ run ∈ (heap.run (before ++ [op])).finalized rest, run.handle = h →
      (h, run.finalizer) ∈ (heap.run (before ++ [op])).registered rest

theorem handle_finalizationOf? {run : Finalization φ} (hrun : heap.finalizationOf? h = some run) :
    run.handle = h := by
  rw [finalizationOf?, finalization?_eq] at hrun
  obtain ⟨finalizer, -, hrun⟩ := Option.bind_eq_some_iff.1 hrun
  obtain ⟨object, -, rfl⟩ := Option.map_eq_some_iff.1 hrun
  rfl

theorem finalizationOf?_eq (hget : heap.get? h = some object)
    (hfinalizer : heap.finalizers[h]? = some finalizer) :
    heap.finalizationOf? h = some ⟨finalizer, h, object⟩ := by
  rw [finalizationOf?, finalization?_eq, hget, hfinalizer]
  rfl

/-- Among the runs for some objects those for one of them are those that it has. -/
theorem filter_filterMap_finalizationOf? {l : List Handle} (hnodup : l.Nodup) (hmem : h ∈ l) :
    (l.filterMap heap.finalizationOf?).filter (fun run => run.handle = h) =
      (heap.finalizationOf? h).toList := by
  have hone : l.filter (fun k => k = h) = [h] := by
    rw [List.filter_eq, List.count_eq_one_of_mem hnodup hmem, List.replicate_one]
  have hswap : (l.filterMap heap.finalizationOf?).filter (fun run => run.handle = h) =
      (l.filter fun k => k = h).filterMap heap.finalizationOf? := by
    rw [List.filter_filterMap, List.filterMap_filter]
    refine List.filterMap_congr fun k _ => ?_
    rcases hrun : heap.finalizationOf? k with _ | run
    · simp
    · have hhandle := handle_finalizationOf? hrun
      by_cases hk : k = h <;> simp [hhandle, hk]
  rw [hswap, hone, List.filterMap_cons]
  rcases heap.finalizationOf? h with _ | run <;> rfl

namespace Intact

/-- A finalizer runs for an object that is released. -/
theorem mem_released_of_mem_finalized (hi : heap.Intact) {run : Finalization φ}
    (hrun : run ∈ op.finalized heap) : run.handle ∈ op.released heap := by
  rw [hi.finalized_perform] at hrun
  obtain ⟨k, hk, hrun⟩ := List.mem_filterMap.1 hrun
  rwa [handle_finalizationOf? hrun]

/-- What runs for an object that is not live was registered later. -/
theorem mem_registered_of_mem_finalized (hi : heap.Intact) {ops : List (Op φ)}
    (hstale : heap.contains h = false) {run : Finalization φ} (hrun : run ∈ heap.finalized ops)
    (hhandle : run.handle = h) : (h, run.finalizer) ∈ heap.registered ops := by
  have hmem : (h, run.finalizer) ∈ heap.outstanding ++ heap.registered ops := by
    refine (hi.outstanding_run ops).mem_iff.1 (List.mem_append_left _ ?_)
    exact List.mem_map.2 ⟨run, hrun, by rw [Finalization.registration, hhandle]⟩
  rcases List.mem_append.1 hmem with hmem | hmem
  · rw [(exists_mem_outstanding hi.wellFormed hmem).1] at hstale
    cases hstale
  · exact hmem

/-- **A finalizer runs when its object is released**, if it does not stay outstanding. -/
theorem finalizesAtRelease (hi : heap.Intact) {ops : List (Op φ)}
    (hh : heap.Holds h tag size object) (hfinalizer : heap.finalizers[h]? = some finalizer)
    (hdone : (heap.run ops).finalizers[h]? = none) :
    heap.FinalizesAtRelease h finalizer object ops := by
  induction ops generalizing heap object with
  | nil =>
    rw [run_nil, hfinalizer] at hdone
    cases hdone
  | cons op ops ih =>
    -- the first call releases the object, or it is held after it with its finalizer
    by_cases hgoes : h ∈ op.released heap
    · refine ⟨[], op, ops, rfl, List.not_mem_nil, fun run hrun => (List.not_mem_nil hrun).elim,
        hgoes, hi.isSome_sweep? op hgoes, hh.get?, ?_, fun run hrun hhandle => ?_⟩
      · rw [run_nil, hi.finalized_perform,
          filter_filterMap_finalizationOf? (hi.nodup_released op) hgoes,
          finalizationOf?_eq hh.get? hfinalizer]
        rfl
      · exact (hi.perform op).mem_registered_of_mem_finalized
          (hi.contains_perform_eq_false op hgoes) hrun hhandle
    · have hstays : (op.perform heap).state.finalizers[h]? = some finalizer := by
        rw [hi.finalizers_perform, if_neg (hi.issued_ne op hh.contains), if_neg hgoes, hfinalizer]
      obtain ⟨before, op', rest, rfl, hreleased, hruns, hlast⟩ :=
        ih (hi.perform op) (hi.holds_perform op hh hgoes) hstays hdone
      refine ⟨op :: before, op', rest, rfl, ?_, ?_, hlast⟩
      · rw [released_cons, List.mem_append, not_or]
        exact ⟨hgoes, hreleased⟩
      · intro run hrun heq
        rw [finalized_cons, List.mem_append] at hrun
        rcases hrun with hrun | hrun
        · exact hgoes (heq ▸ hi.mem_released_of_mem_finalized hrun)
        · exact hruns run hrun heq

end Intact

/-! ### Giving up a heap -/

/-- A heap turned White is White. -/
theorem hasColor_whiten (hw : heap.WellFormed) (hlive : heap.contains h) :
    heap.whiten.HasColor .white h := by
  -- what has been met so far is White, and stays so
  have hfold (hs : List Handle) : ∀ heap : Heap φ, (∀ k ∈ hs, heap.contains k) →
      h ∈ hs ∨ heap.HasColor .white h →
      (hs.foldl (fun heap k => heap.recolor k .white) heap).HasColor .white h := by
    induction hs with
    | nil => exact fun heap _ hmem => hmem.resolve_left List.not_mem_nil
    | cons k hs ih =>
      intro heap hlist hmem
      have hk := hlist k List.mem_cons_self
      refine ih (heap.recolor k .white) (fun j hj => ?_) ?_
      · rw [contains_eq_of_skeleton_eq
          (skeleton_eq_of_colorless_eq (colorless_recolor heap k .white))]
        exact hlist j (List.mem_cons_of_mem k hj)
      · rw [hasColor_recolor_iff hk]
        split
        · exact .inr rfl
        · rename_i hne
          exact hmem.imp_left fun hmem => (List.mem_cons.1 hmem).resolve_left hne
  exact hfold heap.handles heap hw.live (.inl (hw.listed h hlive))

theorem handles_whiten (heap : Heap φ) : heap.whiten.handles = heap.handles :=
  handles_eq_of_skeleton_eq (skeleton_eq_of_colorless_eq (colorless_whiten heap))

/-- No object of a heap turned White is kept by a sweep. -/
theorem WellFormed.isDoomed_whiten (hw : heap.WellFormed) (hh : h ∈ heap.handles) :
    heap.whiten.isDoomed h := by
  rw [isDoomed, Bool.not_eq_true', ← Bool.not_eq_true]
  intro hblack
  have hwhite := hasColor_whiten hw (hw.live h hh)
  cases hwhite.unique (isBlack_iff.1 hblack)

/-- To release all objects leaves none. -/
theorem handles_releaseAll (hw : heap.WellFormed) : heap.releaseAll.state.handles = [] := by
  rw [releaseAll, handles_sweep hw.whiten, handles_whiten, List.filter_eq_nil_iff]
  intro h hh hblack
  have hdoomed := hw.isDoomed_whiten hh
  rw [isDoomed, hblack] at hdoomed
  cases hdoomed

theorem WellFormed.isEmpty_finalizers (hw : heap.WellFormed) (hnone : heap.handles = []) :
    heap.finalizers.isEmpty := by
  refine Std.TreeMap.isEmpty_iff_forall_not_mem.2 fun h hmem => ?_
  have hh := hw.listed h (hw.finalizers_live h hmem)
  rw [hnone] at hh
  cases hh

/-- **Giving up a heap** leaves no finalizer. -/
theorem Intact.isEmpty_closing (hi : heap.Intact) :
    (heap.run heap.closing).finalizers.isEmpty := by
  rw [closing]
  split
  · assumption
  · exact hi.releaseAll.wellFormed.isEmpty_finalizers (handles_releaseAll hi.wellFormed)

/-- The finalizers that run when a heap is given up are those of the calls that it comes to. -/
theorem discard_eq (heap : Heap φ) : heap.discard = heap.finalized heap.closing := by
  rw [discard, closing]
  split
  · rfl
  · rw [finalized_cons, Op.finalized, Op.perform, Swept.events, Event.finalizations_map_finalized]
    exact (List.append_nil _).symm

/-! ### Whole histories -/

/-- **Every finalizer runs exactly once** in a history. -/
structure FinalizesOnce (start : Heap φ) (ops : List (Op φ)) : Prop where
  /-- The runs are, in some order, those that the allocations that succeeded registered: none is
  left out, none is repeated, and none comes from an allocation that failed. -/
  runs_perm : ((start.finalized ops).map Finalization.registration).Perm (start.registered ops)
  /-- The finalizer of an allocation that succeeded runs when the object is released, with the
  handle of the object and the payload that it has then. -/
  runs_at_release : ∀ before object size finalizer granted rest h,
    ops = before ++ .allocate object size (some finalizer) granted :: rest →
    ((start.run before).allocate object size (some finalizer) granted).answer = .ok h →
    ((start.run before).allocate object size (some finalizer) granted).state.FinalizesAtRelease h
      finalizer object rest
  /-- No finalizer runs for an object that stays live. -/
  runs_released : ∀ before op rest, ops = before ++ op :: rest →
    ∀ run ∈ op.finalized (start.run before), (start.run before).contains run.handle ∧
      (start.run (before ++ [op])).contains run.handle = false
  /-- The sweeps answer, together, the number of the finalizers that were registered. -/
  sum_finalizersRun : ((start.sweeps ops).map fun s => s.finalizersRun.toNat).sum =
    (start.registered ops).length

/-- **A history that leaves no finalizer** runs every finalizer exactly once. -/
theorem Intact.finalizesOnce (hi : heap.Intact) {ops : List (Op φ)}
    (hstart : heap.finalizers.isEmpty) (hdone : (heap.run ops).finalizers.isEmpty) :
    heap.FinalizesOnce ops := by
  have hperm : ((heap.finalized ops).map Finalization.registration).Perm
      (heap.registered ops) := by
    simpa [outstanding_eq_nil hstart, outstanding_eq_nil hdone] using hi.outstanding_run ops
  refine ⟨hperm, ?_, ?_, ?_⟩
  · intro before object size finalizer granted rest h hops hanswer
    have hi' := hi.run before
    have hfinalizer := hi'.finalizers_perform (.allocate object size (some finalizer) granted) h
    rw [if_pos (issued_allocate hanswer)] at hfinalizer
    refine (hi'.allocate object size (some finalizer) granted).finalizesAtRelease
      (hi'.holds_allocate hanswer) hfinalizer ?_
    rw [hops, run_append, run_cons] at hdone
    exact Std.TreeMap.getElem?_of_isEmpty hdone
  · intro before op rest hops run hrun
    have hi' := hi.run before
    have hmem := hi'.mem_released_of_mem_finalized hrun
    rw [run_append]
    exact ⟨hi'.contains_of_mem_released op hmem, hi'.contains_perform_eq_false op hmem⟩
  · rw [hi.sum_finalizersRun, ← hperm.length_eq, List.length_map]

end MarkSweep.Heap
