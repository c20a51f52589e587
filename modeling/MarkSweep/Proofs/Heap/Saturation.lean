import MarkSweep.Proofs.Heap.Accounting
import MarkSweep.Proofs.Heap.Totals
import MarkSweep.Proofs.Heap.Tuning

/-!
# Thresholds follow the unbounded rule

The thresholds of a heap are words, and both the comparison with what is in use and the doubling are
cut off at the largest word. That the two go together is `toNat_adjustedThreshold`: a word that is
the cut-off of an ideal threshold is adjusted to the cut-off of the adjusted one. Where the ideal
threshold has left the words, the word is the largest and stays so, for nothing in use is larger.

Carried through a history (`Intact.toNat_threshold_run`), this gives either threshold as a function
of the policy, of the configured value and of what the full collections left of that resource.
-/

namespace MarkSweep.Heap

variable {φ : Type} {heap : Heap φ} {r : Resource}

/-! ### One adjustment -/

theorem le_adjustedThreshold (policy : Policy) (threshold inUse : UInt64) :
    threshold ≤ adjustedThreshold policy threshold inUse := by
  rw [adjustedThreshold]
  split
  · have hword := threshold.toNat_lt
    rw [UInt64.le_iff_toNat_le, Word.toNat_doubleSat, Word.toNat_largest]
    omega
  · exact UInt64.le_refl _

/-- **Saturating adjustment is the unbounded one, cut off at the largest word**, also where the
unbounded threshold is beyond it already. -/
theorem toNat_adjustedThreshold {policy : Policy} {threshold inUse : UInt64} {ideal : Nat}
    (hcut : threshold.toNat = min ideal Word.largest.toNat) :
    (adjustedThreshold policy threshold inUse).toNat =
      min (policy.raise ideal inUse.toNat) Word.largest.toNat := by
  cases policy with
  | static =>
    rw [adjustedThreshold, raisesThreshold]
    exact hcut
  | adaptive =>
    have hraises : raisesThreshold .adaptive threshold inUse ↔
        threshold.toNat < min (2 * inUse.toNat) Word.largest.toNat := by
      rw [raisesThreshold, ← Word.toNat_doubleSat, ← UInt64.lt_iff_toNat_lt]
      simp
    rw [Word.toNat_largest] at hcut hraises ⊢
    rw [adjustedThreshold, Policy.raise]
    split
    · rename_i hword
      rw [hraises] at hword
      rw [Word.toNat_doubleSat, Word.toNat_largest, if_pos (by omega)]
      omega
    · rename_i hword
      rw [hraises] at hword
      split
      · -- the ideal threshold has left the words, or does so now
        omega
      · exact hcut

/-! ### One call -/

namespace Intact

variable (hi : heap.Intact) (r : Resource)
include hi

theorem threshold_perform (op : Op φ) : (op.perform heap).state.threshold r =
    if (op.cycle? heap).isSome then
      adjustedThreshold heap.config.policy (heap.threshold r) ((op.perform heap).state.inUse r)
    else heap.threshold r := by
  cases r with
  | objects => exact (hi.settles op).objectsThreshold
  | bytes => exact (hi.settles op).bytesThreshold

theorem threshold_le_perform (op : Op φ) :
    heap.threshold r ≤ (op.perform heap).state.threshold r := by
  rw [hi.threshold_perform]
  split
  · exact le_adjustedThreshold _ _ _
  · exact UInt64.le_refl _

/-! ### Histories -/

/-- Thresholds never go down. -/
theorem threshold_le_run (ops : List (Op φ)) : heap.threshold r ≤ (heap.run ops).threshold r := by
  induction ops generalizing heap with
  | nil => exact UInt64.le_refl _
  | cons op ops ih => exact UInt64.le_trans (hi.threshold_le_perform r op) (ih (hi.perform op))

/-- **Every history** keeps a threshold at the cut-off of the ideal one. -/
theorem toNat_threshold_run {ideal : Nat}
    (hcut : (heap.threshold r).toNat = min ideal Word.largest.toNat) (ops : List (Op φ)) :
    ((heap.run ops).threshold r).toNat =
      min ((heap.left r ops).foldl heap.config.policy.raise ideal) Word.largest.toNat := by
  induction ops generalizing heap ideal with
  | nil => exact hcut
  | cons op ops ih =>
    have hconfig := hi.config_perform op
    have hthreshold := hi.threshold_perform r op
    rw [run_cons, left_cons, List.foldl_append, ← hconfig]
    refine ih (hi.perform op) ?_
    rw [hthreshold, hconfig, Op.left?]
    rcases op.cycle? heap with _ | cycle
    · exact hcut
    · exact toNat_adjustedThreshold hcut

end Intact

theorem toNat_threshold_ofConfig (config : Config) (r : Resource) :
    ((ofConfig config : Heap φ).threshold r).toNat = max 1 (config.threshold r).toNat := by
  cases r with
  | objects => exact (Word.toNat_max _ _).trans (Nat.max_comm _ _)
  | bytes => exact (Word.toNat_max _ _).trans (Nat.max_comm _ _)

/-- **A threshold follows the unbounded rule** throughout a history. -/
structure FollowsIdeal (φ : Type) (config : Config) (r : Resource) (ops : List (Op φ)) : Prop where
  /-- It is the ideal threshold, or the largest word where that is larger. -/
  toNat_eq : (((ofConfig config : Heap φ).run ops).threshold r).toNat =
    min (config.idealThreshold r ((ofConfig config : Heap φ).left r ops)) (UInt64.size - 1)
  /-- It is at least one. -/
  one_le : 1 ≤ ((ofConfig config : Heap φ).run ops).threshold r
  /-- It is at least the configured value. -/
  configured_le : config.threshold r ≤ ((ofConfig config : Heap φ).run ops).threshold r
  /-- It never goes down. -/
  le_later : ∀ more, ((ofConfig config : Heap φ).run ops).threshold r ≤
    ((ofConfig config : Heap φ).run (ops ++ more)).threshold r
  /-- It depends on its own resource only: another heap that has the same policy and the same
  configured value for this resource, and whose full collections left as much of it in use, has the
  same threshold, whatever it is with the other resource. -/
  independent : ∀ (config' : Config) (ops' : List (Op φ)), config'.policy = config.policy →
    config'.threshold r = config.threshold r →
    (ofConfig config' : Heap φ).left r ops' = (ofConfig config : Heap φ).left r ops →
      ((ofConfig config' : Heap φ).run ops').threshold r =
        ((ofConfig config : Heap φ).run ops).threshold r
  /-- What is configured for the other resource has no part in it either. -/
  same_calls : ∀ config' : Config, config'.policy = config.policy →
    config'.maxBytes = config.maxBytes → config'.threshold r = config.threshold r →
      ((ofConfig config' : Heap φ).run ops).threshold r =
        ((ofConfig config : Heap φ).run ops).threshold r

/-- **Thresholds in saturating arithmetic are ideal thresholds, cut off at the largest word**, for
objects and for bytes, in every state that calls of a new heap lead to. -/
theorem threshold_run (config : Config) (r : Resource) (ops : List (Op φ)) :
    FollowsIdeal φ config r ops := by
  have hi (config : Config) : (ofConfig config : Heap φ).Intact := .ofConfig config
  have hlaw (config : Config) (ops : List (Op φ)) :
      (((ofConfig config : Heap φ).run ops).threshold r).toNat =
        min (config.idealThreshold r ((ofConfig config : Heap φ).left r ops))
          (UInt64.size - 1) := by
    refine (hi config).toNat_threshold_run r ?_ ops
    have hword := (config.threshold r).toNat_lt
    rw [toNat_threshold_ofConfig, Word.toNat_largest]
    omega
  have hsame (config' : Config) (ops' : List (Op φ)) (hpolicy : config'.policy = config.policy)
      (hconfigured : config'.threshold r = config.threshold r)
      (hleft : (ofConfig config' : Heap φ).left r ops' = (ofConfig config : Heap φ).left r ops) :
      ((ofConfig config' : Heap φ).run ops').threshold r =
        ((ofConfig config : Heap φ).run ops).threshold r := by
    rw [← UInt64.toNat_inj, hlaw, hlaw, hleft, Config.idealThreshold, hpolicy, hconfigured,
      Config.idealThreshold]
  have hstart : max 1 (config.threshold r).toNat ≤
      (((ofConfig config : Heap φ).run ops).threshold r).toNat := by
    rw [← toNat_threshold_ofConfig (φ := φ)]
    exact (hi config).threshold_le_run r ops
  constructor
  case toNat_eq => exact hlaw config ops
  case one_le => exact Nat.le_trans (Nat.le_max_left _ _) hstart
  case configured_le => exact Nat.le_trans (Nat.le_max_right _ _) hstart
  case le_later =>
    intro more
    rw [run_append]
    exact ((hi config).run ops).threshold_le_run r more
  case independent => exact hsame
  case same_calls =>
    intro config' hpolicy hmax hconfigured
    exact hsame config' ops hpolicy hconfigured
      (left_eq_of_untuned_eq (untuned_ofConfig hpolicy hmax) r ops)

/-- The ideal threshold for bytes doubles out of the words, and the one for objects, which counts
as one at first, doubles too. -/
example :
    let config : Config := ⟨0, 9223372036854775808, 0, .adaptive⟩
    let ops : List (Op Unit) :=
      [.allocate (.int 7) 9223372036854775808 none true, .collect ⟨none, [⟨0, 0⟩], []⟩, .sweep,
        .collect ⟨none, [], []⟩]
    let left := (ofConfig config : Heap Unit).left
    ((ofConfig config : Heap Unit).run ops).bytesThreshold = Word.largest ∧
      config.idealThreshold .bytes (left .bytes ops) = 18446744073709551616 ∧
      config.idealThreshold .objects (left .objects ops) = 2 := by
  decide +kernel

end MarkSweep.Heap
