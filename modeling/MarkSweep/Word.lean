/-!
# Saturating arithmetic on 64-bit words

Thresholds and the heap limit are 64-bit words, and the tests on them must not wrap. A
saturating operation gives the ideal result while that fits and the largest word otherwise:
this is what `Word.toNat_addSat` and `Word.toNat_doubleSat` say, and it is all that is needed
about the two operations. The larger of two words is the larger number (`Word.toNat_max`).
-/

namespace MarkSweep

namespace Word

/-- The largest word. -/
def largest : UInt64 := 0xffffffffffffffff

/-- The sum of two words, or the largest word where the sum does not fit. -/
def addSat (a b : UInt64) : UInt64 :=
  if a ≤ largest - b then a + b else largest

/-- Twice a word, or the largest word where that does not fit. -/
def doubleSat (a : UInt64) : UInt64 := addSat a a

@[simp]
theorem toNat_largest : largest.toNat = 0xffffffffffffffff := rfl

/-- A saturating sum is the ideal sum, cut off at the largest word. -/
theorem toNat_addSat (a b : UInt64) :
    (addSat a b).toNat = min (a.toNat + b.toNat) largest.toNat := by
  have ha := a.toNat_lt
  have hb := b.toNat_lt
  rw [toNat_largest]
  have hle : b ≤ largest := by
    rw [UInt64.le_iff_toNat_le, toNat_largest]; omega
  unfold addSat
  split
  · rename_i h
    rw [UInt64.le_iff_toNat_le, UInt64.toNat_sub_of_le _ _ hle, toNat_largest] at h
    rw [UInt64.toNat_add]; omega
  · rename_i h
    rw [UInt64.le_iff_toNat_le, UInt64.toNat_sub_of_le _ _ hle, toNat_largest] at h
    rw [toNat_largest]; omega

/-- Saturating doubling is ideal doubling, cut off at the largest word. -/
theorem toNat_doubleSat (a : UInt64) :
    (doubleSat a).toNat = min (2 * a.toNat) largest.toNat := by
  rw [doubleSat, toNat_addSat, Nat.two_mul]

@[simp]
theorem toNat_max (a b : UInt64) : (max a b).toNat = max a.toNat b.toNat := by
  change (if a ≤ b then b else a).toNat = _
  split
  · rename_i hle
    exact (Nat.max_eq_right hle).symm
  · rename_i hlt
    exact (Nat.max_eq_left (Nat.le_of_not_le hlt)).symm

theorem max_eq_or (a b : UInt64) : max a b = a ∨ max a b = b := by
  by_cases hle : a ≤ b
  · exact .inr (if_pos hle)
  · exact .inl (if_neg hle)

end Word

end MarkSweep
