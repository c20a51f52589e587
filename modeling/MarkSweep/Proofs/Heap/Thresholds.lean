import MarkSweep.Proofs.Heap.Conservation
import MarkSweep.Proofs.Heap.Saturation

/-!
# Adaptive thresholds

A heap with adaptive thresholds stays within its threshold for objects, if an object is put in only
where there is room below it (`Paced.run`). For a full collection then leaves at most half of the
threshold in use (`Paced.two_mul_le_collect`): where more than half of the old one is left, which is
no more than all of it, the new one is twice the old one. That the doubling saturates does no harm,
since the arena has too few slots for twice the number of its objects to be cut off.

From there it takes as many allocations as half of the threshold to come up to it again
(`Intact.le_issued_of_threshold_le`). Thresholds never go down, and objects come in one by one, so
that this is so whatever else happens in between, further collections included.
-/

namespace MarkSweep.Heap

variable {φ : Type} {heap : Heap φ} {op : Op φ} {ops : List (Op φ)}

/-! ### Half of a threshold -/

/-- What is at most a threshold, and does not make up half of the words, is at most half of the
threshold that it is adjusted to. -/
theorem two_mul_le_adjustedThreshold {threshold inUse : UInt64} (hle : inUse ≤ threshold)
    (hfit : 2 * inUse.toNat < UInt64.size) :
    2 * inUse.toNat ≤ (adjustedThreshold .adaptive threshold inUse).toNat := by
  have hsize : UInt64.size = 2 ^ 64 := rfl
  rw [UInt64.le_iff_toNat_le] at hle
  rw [adjustedThreshold]
  split
  · rw [Word.toNat_doubleSat, Word.toNat_largest]
    omega
  · rename_i hraises
    simp only [raisesThreshold, decide_true, Bool.true_and, decide_eq_true_eq,
      UInt64.lt_iff_toNat_lt, Word.toNat_doubleSat, Word.toNat_largest] at hraises
    omega

/-- The arena has too few slots for twice the number of its objects to be cut off. -/
theorem WellFormed.two_mul_objectsAllocated_lt (hw : heap.WellFormed) :
    2 * heap.objectsAllocated.toNat < UInt64.size := by
  have hle := Nat.le_trans hw.length_handles_le hw.slots_le
  have hmax : 2 * maxSlots < UInt64.size := by decide
  rw [hw.toNat_objectsAllocated]
  omega

namespace Intact

variable (hi : heap.Intact)
include hi

/-- Objects come in one by one. -/
theorem objectsAllocated_run_le (ops : List (Op φ)) : (heap.run ops).objectsAllocated.toNat ≤
    heap.objectsAllocated.toNat + (heap.issued ops).length := by
  rw [hi.wellFormed.toNat_objectsAllocated, (hi.run ops).wellFormed.toNat_objectsAllocated]
  exact hi.length_run ops ▸ Nat.le_add_left _ _

/-- Only an allocation adds to them. -/
theorem objectsAllocated_perform_le (hissued : op.issued heap = none) :
    (op.perform heap).state.objectsAllocated ≤ heap.objectsAllocated := by
  have hcomes := hi.objectsAllocated_run_le [op]
  rw [issued_cons, hissued] at hcomes
  exact hcomes

/-- **Half of the threshold** that a heap has when at most half of it is in use has to come in
before the threshold is reached, and half of the threshold that is reached then. -/
theorem le_issued_of_threshold_le
    (hhalf : 2 * heap.objectsAllocated.toNat ≤ heap.objectsThreshold.toNat) (ops : List (Op φ))
    (hreached : (heap.run ops).objectsThreshold ≤ (heap.run ops).objectsAllocated) :
    heap.objectsThreshold ≤ (heap.run ops).objectsThreshold ∧
      (heap.run ops).objectsThreshold.toNat ≤ 2 * (heap.issued ops).length := by
  have hrises : heap.objectsThreshold ≤ (heap.run ops).objectsThreshold :=
    hi.threshold_le_run .objects ops
  have hcomes := hi.objectsAllocated_run_le ops
  refine ⟨hrises, ?_⟩
  rw [UInt64.le_iff_toNat_le] at hrises hreached
  omega

end Intact

/-! ### Within the threshold -/

/-- There is room for an object below the threshold, if the call puts one in. -/
def Op.HasRoom (heap : Heap φ) : Op φ → Prop
  | allocate _ _ _ _ => heap.objectsAllocated < heap.objectsThreshold
  | edit _ _ | store _ _ _ | mark _ | sweep | collect _ | releaseAll => True

/-- A heap with an adaptive threshold for objects that is not exceeded. -/
structure Paced (heap : Heap φ) : Prop where
  intact : heap.Intact
  adaptive : heap.config.policy = .adaptive
  /-- A threshold of zero would never be raised. -/
  positive : 0 < heap.objectsThreshold
  within : heap.objectsAllocated ≤ heap.objectsThreshold

namespace Paced

theorem ofConfig {config : Config} (hpolicy : config.policy = .adaptive) :
    (ofConfig config : Heap φ).Paced where
  intact := .ofConfig config
  adaptive := hpolicy
  positive := by
    rw [Heap.ofConfig, UInt64.lt_iff_toNat_lt, Word.toNat_max]
    exact Nat.lt_of_lt_of_le Nat.one_pos (Nat.le_max_right _ _)
  within := by
    rw [UInt64.le_iff_toNat_le]
    exact Nat.zero_le _

variable (hp : heap.Paced)
include hp

theorem perform (hroom : op.HasRoom heap) : (op.perform heap).state.Paced where
  intact := hp.intact.perform op
  adaptive := by rw [hp.intact.config_perform, hp.adaptive]
  positive := UInt64.lt_of_lt_of_le hp.positive (hp.intact.threshold_le_perform .objects op)
  within := by
    have hrises := hp.intact.threshold_le_perform .objects op
    rcases hissued : op.issued heap with _ | h
    · have hcomes := hp.intact.objectsAllocated_perform_le hissued
      exact UInt64.le_trans hcomes (UInt64.le_trans hp.within hrises)
    · obtain ⟨object, size, finalizer, granted, rfl, -⟩ := hp.intact.exists_of_issued hissued
      have hroom : heap.objectsAllocated < heap.objectsThreshold := hroom
      have hcomes := hp.intact.objectsAllocated_run_le [.allocate object size finalizer granted]
      rw [issued_cons, hissued] at hcomes
      exact Nat.le_trans hcomes (Nat.le_trans hroom hrises)

theorem run (hroom : heap.Throughout Op.HasRoom ops) : (heap.run ops).Paced :=
  run_induction_of_throughout (fun _ _ hp => hp.perform) hp hroom

/-- **A full collection** that is completed leaves at most half of the threshold in use. -/
theorem two_mul_le_collect {roots : Roots} {cycle : CycleStats}
    (hanswer : (heap.collect roots).answer = .ok cycle) :
    2 * (heap.collect roots).state.objectsAllocated.toNat ≤
      (heap.collect roots).state.objectsThreshold.toNat := by
  have hperform : ((Op.collect roots).perform heap).state = (heap.collect roots).state := rfl
  have hcycle : (Op.collect roots).cycle? heap = some cycle := by
    rw [Op.cycle?, Op.perform, hanswer]
    rfl
  have hissued : (Op.collect roots).issued heap = none := by
    rw [Op.issued, Op.perform, hanswer]
    rfl
  have hwithin := UInt64.le_trans (hp.intact.objectsAllocated_perform_le hissued) hp.within
  have hthreshold := (hp.intact.settles (.collect roots)).objectsThreshold
  rw [hcycle, hp.adaptive, Option.isSome_some, if_pos rfl] at hthreshold
  rw [← hperform, hthreshold]
  exact two_mul_le_adjustedThreshold hwithin
    (hp.intact.perform (.collect roots)).wellFormed.two_mul_objectsAllocated_lt

/-- So it leaves room below the threshold, which is not zero. -/
theorem lt_collect {roots : Roots} {cycle : CycleStats}
    (hanswer : (heap.collect roots).answer = .ok cycle) :
    (heap.collect roots).state.objectsAllocated < (heap.collect roots).state.objectsThreshold := by
  have hhalf := hp.two_mul_le_collect hanswer
  have hpositive : 0 < (heap.collect roots).state.objectsThreshold :=
    (hp.perform (show (Op.collect roots).HasRoom heap from trivial)).positive
  rw [UInt64.lt_iff_toNat_lt] at hpositive ⊢
  change 0 < _ at hpositive
  omega

end Paced

/-! ### Histories -/

/-- **The full collections of a history are amortised.** -/
structure Amortized (start : Heap φ) (ops : List (Op φ)) : Prop where
  /-- The threshold for objects is never exceeded. -/
  within : ∀ before, before <+: ops →
    (start.run before).objectsAllocated ≤ (start.run before).objectsThreshold
  /-- A full collection that is completed leaves at most half of the threshold in use. -/
  half_left : ∀ before roots more cycle, ops = before ++ .collect roots :: more →
    ((start.run before).collect roots).answer = .ok cycle →
      2 * ((start.run before).collect roots).state.objectsAllocated.toNat ≤
        ((start.run before).collect roots).state.objectsThreshold.toNat
  /-- From there as many objects come in as half of the threshold, the one then as well as the one
  in the end, before the threshold is reached and the number of objects asks for a collection. -/
  spaced : ∀ before roots more cycle, ops = before ++ .collect roots :: more →
    ((start.run before).collect roots).answer = .ok cycle →
      ∀ later, later <+: more →
        let collected := ((start.run before).collect roots).state
        (collected.run later).objectsThreshold ≤ (collected.run later).objectsAllocated →
          collected.objectsThreshold ≤ (collected.run later).objectsThreshold ∧
            (collected.run later).objectsThreshold.toNat ≤ 2 * (collected.issued later).length

/-- Every history is amortised that puts objects in only where there is room for them below the
threshold. -/
theorem Paced.amortized (hp : heap.Paced) (hroom : heap.Throughout Op.HasRoom ops) :
    heap.Amortized ops := by
  have hbefore {before more : List (Op φ)} (heq : ops = before ++ more) :
      (heap.run before).Paced := by
    rw [heq, throughout_append] at hroom
    exact hp.run hroom.1
  refine ⟨?_, ?_, ?_⟩
  · rintro before ⟨more, heq⟩
    exact (hbefore heq.symm).within
  · intro before roots more cycle heq hanswer
    exact (hbefore heq).two_mul_le_collect hanswer
  · intro before roots more cycle heq hanswer later _ collected hreached
    have hpaced := hbefore heq
    exact (hpaced.intact.perform (.collect roots)).le_issued_of_threshold_le
      (hpaced.two_mul_le_collect hanswer) later hreached

end MarkSweep.Heap
