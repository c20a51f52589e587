import MarkSweep.Proofs.Heap.Conservation

/-!
# The limit on bytes

A limit below the largest word is one that the saturating test decides exactly: what is cut off at
the largest word is above the limit anyway (`Limited.wouldExceed_iff`). An object is put in only
where the test is passed, with the true sum, and calls conserve charges. So the true number of bytes
stays within the limit, and the count of bytes, which wraps like any word, is the true number
(`Limited.run`). How much is charged for an object does not matter, and neither does what becomes of
its payload.
-/

namespace MarkSweep.Heap

variable {φ : Type} {heap : Heap φ} {op : Op φ} {h : Handle} {object : Object} {size : UInt64}
  {finalizer : Option φ} {granted : Bool}

/-- An object is put in only where the test of the limit is passed. -/
theorem wouldExceed_of_answer_eq_ok
    (hanswer : (heap.allocate object size finalizer granted).answer = .ok h) :
    heap.wouldExceed size = false := by
  rw [Bool.eq_false_iff]
  intro hexceeds
  rw [allocate, hexceeds] at hanswer
  split at hanswer <;> cases hanswer

/-- A heap with a limit below the largest word that is kept by the true number of bytes. -/
structure Limited (heap : Heap φ) : Prop where
  intact : heap.Intact
  limited : heap.config.maxBytes ≠ 0
  below : heap.config.maxBytes < Word.largest
  totalCharge_le : heap.totalCharge ≤ heap.config.maxBytes.toNat
  peak_le : heap.stats.peakBytes ≤ heap.config.maxBytes

namespace Limited

theorem ofConfig {config : Config} (hlimited : config.maxBytes ≠ 0)
    (hbelow : config.maxBytes < Word.largest) : (ofConfig config : Heap φ).Limited where
  intact := .ofConfig config
  limited := hlimited
  below := hbelow
  totalCharge_le := Nat.zero_le _
  peak_le := Nat.zero_le _

variable (hl : heap.Limited)
include hl

/-- The count of bytes is the true number. -/
theorem toNat_bytesAllocated : heap.bytesAllocated.toNat = heap.totalCharge :=
  hl.intact.wellFormed.toNat_bytesAllocated
    (Nat.lt_of_le_of_lt hl.totalCharge_le heap.config.maxBytes.toNat_lt)

theorem bytesAllocated_le : heap.bytesAllocated ≤ heap.config.maxBytes := by
  rw [UInt64.le_iff_toNat_le, hl.toNat_bytesAllocated]
  exact hl.totalCharge_le

/-- **The test of the limit** decides whether the true sum exceeds it. -/
theorem wouldExceed_iff (size : UInt64) : heap.wouldExceed size ↔
    heap.config.maxBytes.toNat < heap.bytesAllocated.toNat + size.toNat := by
  have hbelow := hl.below
  rw [UInt64.lt_iff_toNat_lt] at hbelow
  rw [Heap.wouldExceed_iff, and_iff_right hl.limited]
  omega

/-- What is put in leaves the true sum within the limit. -/
theorem sum_le_of_answer_eq_ok
    (hanswer : (heap.allocate object size finalizer granted).answer = .ok h) :
    heap.bytesAllocated.toNat + size.toNat ≤ heap.config.maxBytes.toNat := by
  have hpassed := wouldExceed_of_answer_eq_ok hanswer
  rwa [Bool.eq_false_iff, ne_eq, hl.wouldExceed_iff, Nat.not_lt] at hpassed

/-- **No call** breaks the limit. -/
theorem totalCharge_perform_le (op : Op φ) :
    (op.perform heap).state.totalCharge ≤ heap.config.maxBytes.toNat := by
  have hconserved := hl.intact.totalCharge_perform op
  rcases hcharged : op.charged heap with _ | ⟨h, size⟩
  · have hle := hl.totalCharge_le
    have hnone : bytesOf (op.charged heap).toList = 0 := by rw [hcharged]; rfl
    omega
  · obtain ⟨object, finalizer, granted, rfl, hanswer⟩ := exists_allocate_of_charged hcharged
    have hsum := hl.sum_le_of_answer_eq_ok hanswer
    have hcharge : bytesOf ((Op.allocate object size finalizer granted).charged heap).toList =
        size.toNat := by rw [hcharged]; rfl
    rw [hl.toNat_bytesAllocated] at hsum
    omega

theorem perform (op : Op φ) : (op.perform heap).state.Limited := by
  have hi := hl.intact.perform op
  have hconfig := hl.intact.config_perform op
  have hcharge := hl.totalCharge_perform_le op
  refine ⟨hi, ?_, ?_, ?_, ?_⟩
  · rw [hconfig]
    exact hl.limited
  · rw [hconfig]
    exact hl.below
  · rw [hconfig]
    exact hcharge
  · rw [hconfig, (hl.intact.settles op).peakBytes]
    split
    · have hbytes := hi.wellFormed.toNat_bytesAllocated
        (Nat.lt_of_le_of_lt hcharge heap.config.maxBytes.toNat_lt)
      rw [UInt64.le_iff_toNat_le, Word.toNat_max, hbytes]
      exact Nat.max_le.2 ⟨hl.peak_le, hcharge⟩
    · exact hl.peak_le

theorem run (ops : List (Op φ)) : (heap.run ops).Limited :=
  run_induction (fun _ op hl => hl.perform op) hl ops

end Limited

/-! ### What a limit is good for -/

/-- **A limit is kept**, and with it the count of bytes is safe. -/
structure KeepsLimit (heap : Heap φ) (limit : UInt64) : Prop where
  /-- The bytes are within the limit. -/
  bytes_le : heap.bytesAllocated ≤ limit
  /-- They have been so all along. -/
  peak_le : heap.stats.peakBytes ≤ limit
  /-- The count of bytes is the true number. -/
  bytes_eq : heap.bytesAllocated.toNat = heap.totalCharge
  /-- The sum for an object that is put in does not wrap. -/
  adds : ∀ object size finalizer granted h,
    (heap.allocate object size finalizer granted).answer = .ok h →
      heap.bytesAllocated.toNat + size.toNat < UInt64.size ∧
        (heap.allocate object size finalizer granted).state.bytesAllocated.toNat =
          heap.bytesAllocated.toNat + size.toNat
  /-- The limit is tested against the true sum. -/
  tests : ∀ size, heap.wouldExceed size ↔ limit.toNat < heap.bytesAllocated.toNat + size.toNat
  /-- An object with live references is refused where the true sum exceeds the limit, and nothing
  else happens. -/
  refuses : ∀ object size finalizer granted, (∀ r ∈ object.references, heap.contains r) →
    limit.toNat < heap.bytesAllocated.toNat + size.toNat →
      heap.allocate object size finalizer granted =
        .quiet (.error (.outOfMemory ⟨size, heap.bytesAllocated, limit⟩)) heap
  /-- Elsewhere it is put in, if there is a slot. -/
  admits : ∀ object size finalizer granted, (∀ r ∈ object.references, heap.contains r) →
    heap.bytesAllocated.toNat + size.toNat ≤ limit.toNat → heap.hasSlot granted →
      ∃ h, (heap.allocate object size finalizer granted).answer = .ok h

theorem Limited.keepsLimit (hl : heap.Limited) : heap.KeepsLimit heap.config.maxBytes := by
  refine ⟨hl.bytesAllocated_le, hl.peak_le, hl.toNat_bytesAllocated, ?_, hl.wouldExceed_iff, ?_, ?_⟩
  · intro object size finalizer granted h hanswer
    have hsum := hl.sum_le_of_answer_eq_ok hanswer
    have hafter := (hl.perform (.allocate object size finalizer granted)).toNat_bytesAllocated
    have hconserved := hl.intact.totalCharge_perform (.allocate object size finalizer granted)
    rw [charged_allocate hanswer, ← hafter, ← hl.toNat_bytesAllocated] at hconserved
    refine ⟨Nat.lt_of_le_of_lt hsum heap.config.maxBytes.toNat_lt, ?_⟩
    exact (Nat.zero_add _).symm.trans hconserved
  · intro object size finalizer granted hrefs hexceeds
    rw [allocate, stale?_eq_none_iff.2 hrefs, (hl.wouldExceed_iff size).2 hexceeds]
    rfl
  · intro object size finalizer granted hrefs hfits hslot
    rcases allocate_cases hl.intact.wellFormed object size finalizer granted with
      ⟨r, hr, hstale, -⟩ | ⟨hrefused, -⟩ | ⟨-, h, after, -, heq⟩
    · rw [hrefs r hr] at hstale
      cases hstale
    · rw [hl.wouldExceed_iff, hslot] at hrefused
      exact absurd hfits (Nat.not_le.2 (hrefused.resolve_right (by decide)))
    · exact ⟨h, by rw [heq]⟩

end MarkSweep.Heap
