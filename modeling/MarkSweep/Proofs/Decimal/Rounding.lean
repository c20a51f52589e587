import Mathlib.Data.Rat.Floor
import Mathlib.Tactic.Ring
import MarkSweep.Double
import MarkSweep.Proofs.Decimal.Shortest

/-!
# Floating-point numbers are written as shortest decimals

The interval of a floating-point number is that of its magnitude (`Double.center_interval`). It is
wide enough for seventeen digits (`Double.proper_interval`), so that the search finds its shortest
decimal (`Double.isShortest_shortest_interval`).

The intervals of neighbours meet halfway between their magnitudes (`Double.interval_next`), and of
two neighbours only the one with an even significand has the ends in its interval. So a number is in
one interval at most, and the decimal tells which number it is that of
(`Double.toRat_shortest_lt`).
-/

namespace MarkSweep

namespace Double

variable {x : Double}

theorem exponentField_eq (x : Double) : x.exponentField = x.bits.toNat / 2 ^ 52 % 2 ^ 11 := by
  rw [exponentField, UInt64.toNat_and, UInt64.toNat_shiftRight]
  change x.bits.toNat >>> 52 &&& 2 ^ 11 - 1 = _
  rw [Nat.and_two_pow_sub_one_eq_mod, Nat.shiftRight_eq_div_pow]

theorem fraction_eq (x : Double) : x.fraction = x.bits.toNat % 2 ^ 52 := by
  rw [fraction, UInt64.toNat_and]
  exact Nat.and_two_pow_sub_one_eq_mod _ 52

theorem significand_lt (x : Double) : x.significand < 2 ^ 53 := by
  have hfraction := x.fraction_eq
  rw [significand]
  split <;> omega

theorem significand_pos (hx : x.isZero = false) : 0 < x.significand := by
  rw [isZero, decide_eq_false_iff_not] at hx
  rw [significand]
  split <;> omega

/-- What is counted in quarters of the significand's last place, and what it is counted in units. -/
theorem mul_scale_div_unit (n : ℕ) (e : ℤ) :
    ((n * Nat.pow 2 (e - 2).toNat : ℕ) : ℚ) / (Nat.pow 2 (-(e - 2)).toNat : ℕ) =
      n / 4 * 2 ^ e := by
  have hquarter : (2 : ℚ) ^ (e - 2) = 2 ^ e / 4 := by
    rw [zpow_sub₀ (by norm_num)]
    norm_num
  have hscale : ((Nat.pow 2 (e - 2).toNat : ℕ) : ℚ) / (Nat.pow 2 (-(e - 2)).toNat : ℕ) =
      2 ^ (e - 2) := by
    rcases le_total 0 (e - 2) with hnonneg | hnonpos
    · obtain ⟨k, hk⟩ := Int.eq_ofNat_of_zero_le hnonneg
      simp [hk]
    · obtain ⟨k, hk⟩ := Int.eq_ofNat_of_zero_le (neg_nonneg.2 hnonpos)
      obtain rfl : e = 2 - k := by omega
      simp
  rw [Nat.cast_mul, mul_div_assoc, hscale, hquarter]
  ring

/-- The interval is that of the magnitude. -/
theorem center_interval (x : Double) :
    x.interval.center = x.significand * 2 ^ x.binaryExponent := by
  refine (mul_scale_div_unit (4 * x.significand) x.binaryExponent).trans ?_
  push_cast
  ring

/-- **Seventeen digits tell floating-point numbers apart**: their intervals are wide enough, also at
the powers of two, where they are narrower on one side. -/
theorem proper_interval (hx : x.isZero = false) : x.interval.Proper := by
  have hpos := significand_pos hx
  have hlt := x.significand_lt
  have hscale : 0 < Nat.pow 2 (x.binaryExponent - 2).toNat := Nat.two_pow_pos _
  have hpower : x.fraction = 0 ∧ 1 < x.exponentField → x.significand = 2 ^ 52 := by
    rintro ⟨hfraction, hexponent⟩
    rw [significand, if_neg (by omega), hfraction]
    rfl
  constructor
  case unit_pos => exact Nat.two_pow_pos _
  case lower_pos =>
    refine Nat.mul_pos ?_ hscale
    split <;> omega
  case lower_lt =>
    refine Nat.mul_lt_mul_of_pos_right ?_ hscale
    split <;> omega
  case lt_upper => exact Nat.mul_lt_mul_of_pos_right (by omega) hscale
  case wide =>
    rw [interval]
    simp only
    rw [← Nat.sub_mul, ← Nat.mul_assoc]
    refine Nat.mul_lt_mul_of_pos_right ?_ hscale
    split
    · rename_i hnarrow
      rw [hpower hnarrow]
      decide
    · omega

/-- **A number is written as its shortest decimal**, the shortest one in the interval of its
magnitude. -/
theorem isShortest_shortest_interval (hx : x.isZero = false) :
    x.interval.IsShortest x.interval.shortest.toRat :=
  (proper_interval hx).isShortest_shortest

/-- The least number of all has one digit. -/
example : (Double.mk 1).interval.shortest = ⟨5, -324⟩ := by decide +kernel

/-- The number with the next bits. After the largest magnitude it is infinite, with the fields that
the next magnitude would have. -/
def next (x : Double) : Double := ⟨x.bits + 1⟩

/-- The next bits count one more in the last place, or begin with the next exponent. In the latter
case the gap below is the narrow one. -/
theorem fields_next (hx : x.exponentField < 2047) :
    (x.next.significand = x.significand + 1 ∧ x.next.binaryExponent = x.binaryExponent ∧
        ¬ (x.next.fraction = 0 ∧ 1 < x.next.exponentField)) ∨
      (x.significand + 1 = 2 ^ 53 ∧ x.next.significand = 2 ^ 52 ∧
        x.next.binaryExponent = x.binaryExponent + 1 ∧
        (x.next.fraction = 0 ∧ 1 < x.next.exponentField)) := by
  have hbits : x.next.bits.toNat = (x.bits.toNat + 1) % 2 ^ 64 := UInt64.toNat_add ..
  have hlt := x.bits.toNat_lt
  have hexponent := x.exponentField_eq
  have hfraction := x.fraction_eq
  have hexponent' := x.next.exponentField_eq
  have hfraction' := x.next.fraction_eq
  rw [hbits] at hexponent' hfraction'
  rw [significand, significand, binaryExponent, binaryExponent]
  -- the fields are quotients and remainders of the bits from here on
  generalize x.bits.toNat = bits at *
  by_cases hcarry : x.fraction + 1 < 2 ^ 52
  · have hsame : x.next.exponentField = x.exponentField ∧ x.next.fraction = x.fraction + 1 := by
      omega
    left
    rw [hsame.1, hsame.2]
    split <;> omega
  · have hnext : x.next.exponentField = x.exponentField + 1 ∧ x.next.fraction = 0 := by omega
    rw [hnext.1, hnext.2]
    rcases Nat.eq_zero_or_pos x.exponentField with hzero | hpos
    · -- the leading bit appears where the exponent field becomes one, and means the same there
      left
      rw [hzero, if_neg (by decide), if_pos rfl, if_neg (by decide), if_pos rfl]
      omega
    · right
      rw [if_neg (by omega), if_neg (by omega), if_neg (by omega), if_neg (by omega)]
      omega

/-- **The intervals of neighbours meet halfway** between their magnitudes. -/
theorem interval_next (hx : x.exponentField < 2047) :
    (x.interval.upper : ℚ) / x.interval.unit = (x.interval.center + x.next.interval.center) / 2 ∧
      (x.next.interval.lower : ℚ) / x.next.interval.unit =
        (x.interval.center + x.next.interval.center) / 2 := by
  have hupper := mul_scale_div_unit (4 * x.significand + 2) x.binaryExponent
  have hlower := mul_scale_div_unit (4 * x.next.significand -
    if x.next.fraction = 0 ∧ 1 < x.next.exponentField then 1 else 2) x.next.binaryExponent
  rw [center_interval, center_interval]
  rcases fields_next hx with ⟨hsignificand, hexponent, hgap⟩ |
    ⟨hlast, hsignificand, hexponent, hgap⟩
  · refine ⟨hupper.trans ?_, hlower.trans ?_⟩
    · rw [hsignificand, hexponent]
      push_cast
      ring
    · have hsub : 4 * (x.significand + 1) - 2 = 4 * x.significand + 2 := by omega
      rw [if_neg hgap, hsignificand, hexponent, hsub]
      push_cast
      ring
  · have hcast : (x.significand : ℚ) = 2 ^ 53 - 1 := by
      rw [eq_sub_iff_add_eq]
      exact_mod_cast hlast
    refine ⟨hupper.trans ?_, hlower.trans ?_⟩
    · rw [hsignificand, hexponent, zpow_add_one₀ (by norm_num)]
      push_cast
      rw [hcast]
      ring
    · have hsub : ((4 * 2 ^ 52 - 1 : ℕ) : ℚ) = 2 ^ 54 - 1 := by norm_num
      rw [if_pos hgap, hsignificand, hexponent, hsub, hcast, zpow_add_one₀ (by norm_num)]
      push_cast
      ring

/-- Of two neighbours one has an odd significand, and its interval is open. -/
theorem closed_interval_next (hx : x.exponentField < 2047) :
    x.interval.closed = false ∨ x.next.interval.closed = false := by
  rw [interval, interval, decide_eq_false_iff_not, decide_eq_false_iff_not]
  rcases fields_next hx with ⟨hsignificand, -, -⟩ | ⟨hlast, -, -, -⟩ <;> omega

/-- The intervals of neighbours have no number in common. -/
theorem lt_of_mem_interval_next (hx : x.exponentField < 2047) {p q : ℚ}
    (hp : x.interval.Mem p) (hq : x.next.interval.Mem q) : p < q := by
  obtain ⟨hupper, hlower⟩ := interval_next hx
  obtain ⟨hle, hlt⟩ := hp.le_upper (Nat.two_pow_pos _)
  obtain ⟨hge, hgt⟩ := hq.lower_le (Nat.two_pow_pos _)
  rw [hupper] at hle hlt
  rw [hlower] at hge hgt
  rcases closed_interval_next hx with hopen | hopen
  · exact (hlt hopen).trans_le hge
  · exact hle.trans_lt (hgt hopen)

theorem isNegative_eq (x : Double) : x.isNegative = decide (2 ^ 63 ≤ x.bits.toNat) :=
  decide_eq_decide.2 UInt64.le_iff_toNat_le

theorem toNat_bits_next {y : Double} (hlt : x.bits < y.bits) :
    x.next.bits.toNat = x.bits.toNat + 1 := by
  rw [UInt64.lt_iff_toNat_lt] at hlt
  have hbound := y.bits.toNat_lt
  have hbits : x.next.bits.toNat = (x.bits.toNat + 1) % 2 ^ 64 := UInt64.toNat_add ..
  omega

theorem exponentField_le {y : Double} (hsign : x.isNegative = y.isNegative)
    (hle : x.bits ≤ y.bits) : x.exponentField ≤ y.exponentField := by
  rw [isNegative_eq, isNegative_eq, decide_eq_decide] at hsign
  rw [UInt64.le_iff_toNat_le] at hle
  have hbound := y.bits.toNat_lt
  rw [exponentField_eq, exponentField_eq]
  omega

/-- Only the first number of a sign is zero. -/
theorem isZero_eq_false {y : Double} (hsign : x.isNegative = y.isNegative)
    (hlt : x.bits < y.bits) : y.isZero = false := by
  rw [isNegative_eq, isNegative_eq, decide_eq_decide] at hsign
  rw [UInt64.lt_iff_toNat_lt] at hlt
  have hbound := y.bits.toNat_lt
  rw [isZero, decide_eq_false_iff_not, exponentField_eq, fraction_eq]
  omega

/-- **The intervals are in the order of the magnitudes**, and have no number in common. -/
theorem lt_of_mem_interval {y : Double} (hsign : x.isNegative = y.isNegative)
    (hlt : x.bits < y.bits) (hy : y.exponentField < 2047) {p q : ℚ}
    (hp : x.interval.Mem p) (hq : y.interval.Mem q) : p < q := by
  have hfinite : x.exponentField < 2047 :=
    (exponentField_le hsign (UInt64.le_of_lt hlt)).trans_lt hy
  have hnext := toNat_bits_next hlt
  obtain ⟨n, hn⟩ := Nat.exists_eq_add_of_lt (UInt64.lt_iff_toNat_lt.1 hlt)
  -- from one number to the next one, with the magnitude of the latter in between
  induction n generalizing x p with
  | zero =>
    obtain rfl : x.next = y := by
      rw [← hn] at hnext
      exact congrArg Double.mk (UInt64.toNat_inj.1 hnext)
    exact lt_of_mem_interval_next hfinite hp hq
  | succ n ih =>
    have hlt' : x.next.bits < y.bits := UInt64.lt_iff_toNat_lt.2 (by omega)
    have hsign_next : x.isNegative = x.next.isNegative := by
      rw [isNegative_eq, isNegative_eq, decide_eq_decide] at hsign ⊢
      omega
    have hmiddle := (proper_interval (isZero_eq_false hsign_next
      (UInt64.lt_iff_toNat_lt.2 (by omega)))).mem_center
    have hsign' := hsign_next.symm.trans hsign
    exact (lt_of_mem_interval_next hfinite hp hmiddle).trans (ih hsign' hlt' hmiddle
      ((exponentField_le hsign' (UInt64.le_of_lt hlt')).trans_lt hy) (toNat_bits_next hlt')
      (by omega))

/-- **Different magnitudes are written as different decimals**, and the greater one as the greater
decimal. -/
theorem toRat_shortest_lt {y : Double} (hx : x.isZero = false)
    (hsign : x.isNegative = y.isNegative) (hlt : x.bits < y.bits) (hy : y.exponentField < 2047) :
    x.interval.shortest.toRat < y.interval.shortest.toRat :=
  lt_of_mem_interval hsign hlt hy (isShortest_shortest_interval hx).mem
    (isShortest_shortest_interval (isZero_eq_false hsign hlt)).mem

end Double

end MarkSweep
