import Mathlib.Algebra.Order.Field.Power
import Mathlib.Data.Rat.Floor
import Mathlib.Tactic.FieldSimp
import Mathlib.Tactic.Linarith
import Mathlib.Tactic.Ring
import MarkSweep.Decimal.Shortest

/-!
# The search finds the shortest decimal

The tests of the search compare natural numbers. Here they are read as tests of rational numbers
against an interval (`Interval.contains_onGrid`), which is convex and has the number that it stands
for inside. So a grid has a point in the interval exactly where one of the number's two neighbours
on it is one, and the one that is taken is the closest (`Interval.Proper.nearest?_eq_some`).

The grids get finer by one digit at a time, from the grid of the leading digit on. If the interval
is not too narrow the search ends on one of them, and what it ends with is the shortest decimal of
all (`Interval.Proper.isShortest_shortest`): one with fewer digits would lie on a grid before, or
else below the leading power of ten, which is on that grid and in the interval then.
-/

namespace MarkSweep

namespace Decimal

/-- The number that a decimal stands for. -/
def toRat (d : Decimal) : ℚ := d.coefficient * 10 ^ d.exponent

/-- The number can be written with `n` digits, not counting zeros at either end. -/
def HasDigits (n : ℕ) (q : ℚ) : Prop := ∃ d : Decimal, d.coefficient < 10 ^ n ∧ d.toRat = q

/-- Of two numbers `q` is the one closer to `c`, or they are equally close and `q` is not less. -/
def Nearer (c q p : ℚ) : Prop := |q - c| < |p - c| ∨ |q - c| = |p - c| ∧ p ≤ q

theorem Nearer.refl (c q : ℚ) : Nearer c q q := .inr ⟨rfl, le_rfl⟩

theorem Nearer.trans {c q p r : ℚ} (hq : Nearer c q p) (hp : Nearer c p r) : Nearer c q r := by
  rcases hq with hq | ⟨hq, hpq⟩ <;> rcases hp with hp | ⟨hp, hrp⟩
  · exact .inl (hq.trans hp)
  · exact .inl (hp ▸ hq)
  · exact .inl (hq ▸ hp)
  · exact .inr ⟨hq.trans hp, hrp.trans hpq⟩

theorem Nearer.of_le_of_le {c q p : ℚ} (hpq : p ≤ q) (hqc : q ≤ c) : Nearer c q p := by
  rcases hpq.lt_or_eq with hlt | rfl
  · left
    rw [abs_of_nonpos (by linarith), abs_of_nonpos (by linarith)]
    linarith
  · exact .refl c p

theorem Nearer.of_ge_of_ge {c q p : ℚ} (hqp : q ≤ p) (hcq : c ≤ q) : Nearer c q p := by
  rcases hqp.lt_or_eq with hlt | rfl
  · left
    rw [abs_of_nonneg (by linarith), abs_of_nonneg (by linarith)]
    linarith
  · exact .refl c q

/-- A number that is above `c` and nearer than another one above it is not the greater one. -/
theorem Nearer.le_of_le {c q p : ℚ} (h : Nearer c q p) (hcp : c ≤ p) : q ≤ p := by
  by_contra hlt
  rw [not_le] at hlt
  rw [Nearer, abs_of_nonneg (by linarith), abs_of_nonneg (by linarith)] at h
  rcases h with h | ⟨h, -⟩ <;> linarith

theorem pow_mul_zpow_sub (leading : ℤ) (n : ℕ) :
    ((10 ^ n : ℕ) : ℚ) * 10 ^ (leading - n) = 10 ^ leading := by
  rw [Nat.cast_pow, Nat.cast_ofNat, ← zpow_natCast, ← zpow_add₀ (by norm_num)]
  congr 1
  ring

theorem HasDigits.mono {m n : ℕ} {q : ℚ} (h : HasDigits m q) (hmn : m ≤ n) : HasDigits n q := by
  obtain ⟨d, hlt, hd⟩ := h
  exact ⟨d, hlt.trans_le (Nat.pow_le_pow_right (by decide) hmn), hd⟩

/-- A number with few digits lies on the grid of the last of them, or below the power of ten that
the grid begins with. -/
theorem HasDigits.cases {n : ℕ} {q : ℚ} (h : HasDigits (n + 1) q) (leading : ℤ) :
    (∃ c : ℕ, q = c * 10 ^ (leading - n)) ∨ q < 10 ^ leading := by
  obtain ⟨⟨c, e⟩, hlt, rfl⟩ := h
  rw [toRat]
  rcases lt_or_ge e (leading - n) with he | he
  · right
    have hc : (c : ℚ) < 10 ^ (n + 1) := by exact_mod_cast hlt
    calc (c : ℚ) * 10 ^ e < 10 ^ (n + 1) * 10 ^ e :=
          mul_lt_mul_of_pos_right hc (by positivity)
      _ = 10 ^ ((n + 1 : ℕ) + e) := by rw [zpow_add₀ (by norm_num), zpow_natCast]
      _ ≤ 10 ^ leading := zpow_le_zpow_right₀ (by norm_num) (by push_cast; omega)
  · left
    obtain ⟨m, hm⟩ := Int.eq_ofNat_of_zero_le (Int.sub_nonneg.2 he)
    refine ⟨c * 10 ^ m, ?_⟩
    rw [Nat.cast_mul, Nat.cast_pow, mul_assoc, Nat.cast_ofNat, ← zpow_natCast, ← hm,
      ← zpow_add₀ (by norm_num), sub_add_cancel]

namespace Interval

variable {i : Interval} {e : ℤ}

/-- The number that the interval is that of. -/
def center (i : Interval) : ℚ := i.value / i.unit

/-- The number lies in the interval. -/
def Mem (i : Interval) (q : ℚ) : Prop :=
  if i.closed then i.lower ≤ q * i.unit ∧ q * i.unit ≤ i.upper
  else i.lower < q * i.unit ∧ q * i.unit < i.upper

/-- An interval with its number inside, and wide enough for seventeen digits to tell the number from
those outside. -/
structure Proper (i : Interval) : Prop where
  /-- The unit is one. -/
  unit_pos : 0 < i.unit
  /-- Zero is outside. -/
  lower_pos : 0 < i.lower
  /-- The lower end is below the number. -/
  lower_lt : i.lower < i.value
  /-- The upper end is above it. -/
  lt_upper : i.value < i.upper
  /-- The sixteenth digit after the leading one counts for less than the interval is wide. -/
  wide : i.value < 10 ^ 16 * (i.upper - i.lower)

/-- **The shortest number of an interval**: it has the fewest digits, and of those with as few it is
the one closest to the number that the interval is that of, the greater one of two. -/
structure IsShortest (i : Interval) (q : ℚ) : Prop where
  /-- It lies in the interval. -/
  mem : i.Mem q
  /-- No other number in the interval can be written with fewer digits. -/
  fewest : ∀ n p, i.Mem p → HasDigits n p → HasDigits n q
  /-- None that can be written with as few is closer. -/
  nearer : ∀ p, i.Mem p → (∀ n, HasDigits n q → HasDigits n p) → Nearer i.center q p

/-! ### Intervals of rational numbers -/

theorem Mem.convex {p q r : ℚ} (hp : i.Mem p) (hr : i.Mem r) (hpq : p ≤ q) (hqr : q ≤ r) :
    i.Mem q := by
  have hunit : (0 : ℚ) ≤ i.unit := Nat.cast_nonneg _
  have hle := mul_le_mul_of_nonneg_right hpq hunit
  have hge := mul_le_mul_of_nonneg_right hqr hunit
  rw [Mem] at hp hr ⊢
  split
  · rename_i hclosed
    rw [if_pos hclosed] at hp hr
    exact ⟨hp.1.trans hle, hge.trans hr.2⟩
  · rename_i hopen
    rw [if_neg hopen] at hp hr
    exact ⟨hp.1.trans_le hle, hge.trans_lt hr.2⟩

theorem Mem.of_lt_of_lt {q : ℚ} (hlower : i.lower < q * i.unit)
    (hupper : q * i.unit < i.upper) : i.Mem q := by
  rw [Mem]
  split
  · exact ⟨hlower.le, hupper.le⟩
  · exact ⟨hlower, hupper⟩

/-- The upper end bounds the interval, strictly where it does not belong to it. -/
theorem Mem.le_upper {q : ℚ} (h : i.Mem q) (hunit : 0 < i.unit) :
    q ≤ i.upper / i.unit ∧ (i.closed = false → q < i.upper / i.unit) := by
  have hunit : (0 : ℚ) < i.unit := Nat.cast_pos.2 hunit
  rw [le_div_iff₀ hunit, lt_div_iff₀ hunit]
  rw [Mem] at h
  split at h
  · rename_i hclosed
    exact ⟨h.2, fun hopen => absurd hclosed (by simp [hopen])⟩
  · exact ⟨h.2.le, fun _ => h.2⟩

theorem Mem.lower_le {q : ℚ} (h : i.Mem q) (hunit : 0 < i.unit) :
    i.lower / i.unit ≤ q ∧ (i.closed = false → i.lower / i.unit < q) := by
  have hunit : (0 : ℚ) < i.unit := Nat.cast_pos.2 hunit
  rw [div_le_iff₀ hunit, div_lt_iff₀ hunit]
  rw [Mem] at h
  split at h
  · rename_i hclosed
    exact ⟨h.1, fun hopen => absurd hclosed (by simp [hopen])⟩
  · exact ⟨h.1.le, fun _ => h.1⟩

namespace Proper

variable (hi : i.Proper)
include hi

theorem center_mul_unit : i.center * i.unit = i.value :=
  div_mul_cancel₀ _ (Nat.cast_ne_zero.2 hi.unit_pos.ne')

theorem mem_center : i.Mem i.center := by
  refine .of_lt_of_lt ?_ ?_ <;> rw [hi.center_mul_unit] <;> norm_cast
  · exact hi.lower_lt
  · exact hi.lt_upper

end Proper

/-! ### Grids -/

/-- An interval is put on a grid by a change of scale. -/
theorem exists_scale (i : Interval) (e : ℤ) : ∃ c : ℚ, 0 < c ∧
    ((i.onGrid e).value : ℚ) = i.value * c ∧ ((i.onGrid e).lower : ℚ) = i.lower * c ∧
      ((i.onGrid e).upper : ℚ) = i.upper * c ∧
      ((i.onGrid e).unit : ℚ) = i.unit * 10 ^ e * c ∧ (i.onGrid e).closed = i.closed := by
  rw [onGrid]
  split
  · rename_i hnonneg
    obtain ⟨n, rfl⟩ := Int.eq_ofNat_of_zero_le hnonneg
    exact ⟨1, one_pos, by simp⟩
  · rename_i hneg
    obtain ⟨n, rfl⟩ : ∃ n : ℕ, e = -n := ⟨(-e).toNat, by omega⟩
    refine ⟨10 ^ n, by positivity, by simp, by simp, by simp, ?_, rfl⟩
    rw [zpow_neg, zpow_natCast, mul_assoc, inv_mul_cancel₀ (by positivity), mul_one]

/-- **The tests of a grid** are tests of its points. -/
theorem contains_onGrid (i : Interval) (e : ℤ) (d : ℕ) :
    (i.onGrid e).contains d ↔ i.Mem (d * 10 ^ e) := by
  obtain ⟨c, hc, -, hlower, hupper, hunit, hclosed⟩ := i.exists_scale e
  have hpoint : ((d * (i.onGrid e).unit : ℕ) : ℚ) = d * 10 ^ e * i.unit * c := by
    push_cast
    rw [hunit]
    ring
  have hcompare {a b : ℕ} {p q : ℚ} (ha : (a : ℚ) = p * c) (hb : (b : ℚ) = q * c) :
      (a ≤ b ↔ p ≤ q) ∧ (a < b ↔ p < q) := by
    rw [← @Nat.cast_le ℚ, ← @Nat.cast_lt ℚ, ha, hb, mul_le_mul_iff_left₀ hc,
      mul_lt_mul_iff_left₀ hc]
    exact ⟨.rfl, .rfl⟩
  have hbelow := hcompare hlower hpoint
  have habove := hcompare hpoint hupper
  rw [contains, Mem, hclosed]
  cases i.closed <;> simp [hbelow, habove]

/-- The last point of a grid that is not above the number, counted from zero. -/
def below (i : Interval) (e : ℤ) : ℕ := (i.onGrid e).value / (i.onGrid e).unit

namespace Proper

variable (hi : i.Proper) (e)
include hi

/-- Where the number is between its neighbours on a grid. -/
theorem exists_remainder : ∃ t : ℚ, 0 ≤ t ∧ t < 1 ∧ i.center = (i.below e + t) * 10 ^ e ∧
    (2 * ((i.onGrid e).value % (i.onGrid e).unit) < (i.onGrid e).unit ↔ 2 * t < 1) := by
  obtain ⟨c, hc, hvalue, -, -, hunit, -⟩ := i.exists_scale e
  have hpow : (0 : ℚ) < 10 ^ e := by positivity
  have hunit_pos : (0 : ℚ) < i.unit := Nat.cast_pos.2 hi.unit_pos
  have hpos : (0 : ℚ) < (i.onGrid e).unit := by
    rw [hunit]
    positivity
  refine ⟨((i.onGrid e).value % (i.onGrid e).unit : ℕ) / (i.onGrid e).unit,
    div_nonneg (Nat.cast_nonneg _) hpos.le, ?_, ?_, ?_⟩
  · rw [div_lt_one₀ hpos, Nat.cast_lt]
    exact Nat.mod_lt _ (Nat.cast_pos.1 hpos)
  · have hdiv : ((i.onGrid e).value : ℚ) = (i.onGrid e).unit * i.below e +
        ((i.onGrid e).value % (i.onGrid e).unit : ℕ) := by
      exact_mod_cast (Nat.div_add_mod _ _).symm
    calc i.center = (i.onGrid e).value / (i.onGrid e).unit * 10 ^ e := by
          rw [hvalue, hunit, center]
          field_simp
      _ = _ := by
          rw [hdiv]
          field_simp
  · rw [← mul_div_assoc, div_lt_one₀ hpos]
    norm_cast

theorem below_mul_le : i.below e * 10 ^ e ≤ i.center := by
  obtain ⟨t, hnonneg, -, hcenter, -⟩ := hi.exists_remainder e
  have hpow : (0 : ℚ) < 10 ^ e := by positivity
  rw [hcenter]
  nlinarith

theorem center_lt_succ_below_mul : i.center < (i.below e + 1 : ℕ) * 10 ^ e := by
  obtain ⟨t, -, hlt, hcenter, -⟩ := hi.exists_remainder e
  have hpow : (0 : ℚ) < 10 ^ e := by positivity
  rw [hcenter, Nat.cast_succ]
  nlinarith

/-- If a point of a grid is in the interval, so is the neighbour of the number on that side. -/
theorem mem_neighbour {d : ℕ} (hd : i.Mem (d * 10 ^ e)) :
    d ≤ i.below e ∧ i.Mem (i.below e * 10 ^ e) ∨
      i.below e + 1 ≤ d ∧ i.Mem ((i.below e + 1 : ℕ) * 10 ^ e) := by
  have hpow : (0 : ℚ) ≤ 10 ^ e := by positivity
  rcases Nat.lt_or_ge (i.below e) d with hlt | hle
  · have habove : ((i.below e + 1 : ℕ) : ℚ) ≤ d := Nat.cast_le.2 hlt
    exact .inr ⟨hlt, hi.mem_center.convex hd (hi.center_lt_succ_below_mul e).le
      (mul_le_mul_of_nonneg_right habove hpow)⟩
  · have hbelow : (d : ℚ) ≤ i.below e := Nat.cast_le.2 hle
    exact .inl ⟨hle, hd.convex hi.mem_center
      (mul_le_mul_of_nonneg_right hbelow hpow) (hi.below_mul_le e)⟩

variable {e}

/-- Where nothing is found on a grid, nothing of it lies in the interval. -/
theorem not_mem_of_nearest?_eq_none (h : (i.onGrid e).nearest? = none) (d : ℕ) :
    ¬ i.Mem (d * 10 ^ e) := by
  intro hd
  have hfound : (i.onGrid e).contains (i.below e) ∨ (i.onGrid e).contains (i.below e + 1) := by
    rw [contains_onGrid, contains_onGrid]
    exact (hi.mem_neighbour e hd).imp And.right And.right
  rw [below] at hfound
  simp only [nearest?] at h
  split at h <;> simp_all

theorem nearer_below {c : ℕ} (hc : c ≤ i.below e) :
    Nearer i.center (i.below e * 10 ^ e) (c * 10 ^ e) :=
  .of_le_of_le (mul_le_mul_of_nonneg_right (Nat.cast_le.2 hc) (by positivity)) (hi.below_mul_le e)

theorem nearer_above {c : ℕ} (hc : i.below e + 1 ≤ c) :
    Nearer i.center ((i.below e + 1 : ℕ) * 10 ^ e) (c * 10 ^ e) :=
  .of_ge_of_ge (mul_le_mul_of_nonneg_right (Nat.cast_le.2 hc) (by positivity))
    (hi.center_lt_succ_below_mul e).le

/-- Of the two neighbours the remainder tells the closer one. -/
theorem nearer_ite :
    if 2 * ((i.onGrid e).value % (i.onGrid e).unit) < (i.onGrid e).unit
    then Nearer i.center (i.below e * 10 ^ e) ((i.below e + 1 : ℕ) * 10 ^ e)
    else Nearer i.center ((i.below e + 1 : ℕ) * 10 ^ e) (i.below e * 10 ^ e) := by
  obtain ⟨t, hnonneg, hlt, hcenter, hhalf⟩ := hi.exists_remainder e
  have hpow : (0 : ℚ) < 10 ^ e := by positivity
  have hdown : |(i.below e * 10 ^ e : ℚ) - i.center| = t * 10 ^ e := by
    rw [abs_of_nonpos (by linarith [hi.below_mul_le e]), hcenter]
    ring
  have hup : |((i.below e + 1 : ℕ) * 10 ^ e : ℚ) - i.center| = (1 - t) * 10 ^ e := by
    rw [abs_of_nonneg (by linarith [hi.center_lt_succ_below_mul e]), hcenter, Nat.cast_succ]
    ring
  rw [Nearer, Nearer, hdown, hup, mul_lt_mul_iff_left₀ hpow, mul_lt_mul_iff_left₀ hpow]
  split
  · rename_i hless
    have ht := hhalf.1 hless
    exact .inl (by linarith)
  · rename_i hmore
    have ht : 1 ≤ 2 * t := not_lt.1 fun hless => hmore (hhalf.2 hless)
    rcases ht.lt_or_eq with ht | ht
    · exact .inl (by linarith)
    · have heq : 1 - t = t := by linarith
      exact .inr ⟨by rw [heq], (hi.below_mul_le e).trans (hi.center_lt_succ_below_mul e).le⟩

/-- What is found on a grid is a neighbour of the number, and the closer one where both are in the
interval. -/
theorem nearest?_cases {d : ℕ} (h : (i.onGrid e).nearest? = some d) :
    d = i.below e ∧ i.Mem (i.below e * 10 ^ e) ∧
        (i.Mem ((i.below e + 1 : ℕ) * 10 ^ e) →
          Nearer i.center (i.below e * 10 ^ e) ((i.below e + 1 : ℕ) * 10 ^ e)) ∨
      d = i.below e + 1 ∧ i.Mem ((i.below e + 1 : ℕ) * 10 ^ e) ∧
        (i.Mem (i.below e * 10 ^ e) →
          Nearer i.center ((i.below e + 1 : ℕ) * 10 ^ e) (i.below e * 10 ^ e)) := by
  have hquotient : (i.onGrid e).value / (i.onGrid e).unit = i.below e := rfl
  have hite := hi.nearer_ite (e := e)
  simp only [nearest?, hquotient] at h
  rw [← contains_onGrid, ← contains_onGrid]
  cases hbelow : (i.onGrid e).contains (i.below e) <;>
    cases habove : (i.onGrid e).contains (i.below e + 1) <;>
    simp only [hbelow, habove, Option.some.injEq, reduceCtorEq] at h
  case false.true => exact .inr ⟨h.symm, rfl, nofun⟩
  case true.false => exact .inl ⟨h.symm, rfl, nofun⟩
  case true.true =>
    split at h
    · rename_i hless
      rw [if_pos hless] at hite
      exact .inl ⟨h.symm, rfl, fun _ => hite⟩
    · rename_i hmore
      rw [if_neg hmore] at hite
      exact .inr ⟨h.symm, rfl, fun _ => hite⟩

/-- **What is found on a grid** is the point of it in the interval that is closest. -/
theorem nearest?_eq_some {d : ℕ} (h : (i.onGrid e).nearest? = some d) :
    i.Mem (d * 10 ^ e) ∧ ∀ c : ℕ, i.Mem (c * 10 ^ e) →
      Nearer i.center (d * 10 ^ e) (c * 10 ^ e) := by
  rcases hi.nearest?_cases h with ⟨rfl, hmem, hcloser⟩ | ⟨rfl, hmem, hcloser⟩
  · refine ⟨hmem, fun c hc => ?_⟩
    rcases hi.mem_neighbour e hc with ⟨hle, -⟩ | ⟨hle, habove⟩
    · exact hi.nearer_below hle
    · exact (hcloser habove).trans (hi.nearer_above hle)
  · refine ⟨hmem, fun c hc => ?_⟩
    rcases hi.mem_neighbour e hc with ⟨hle, hbelow⟩ | ⟨hle, -⟩
    · exact (hcloser hbelow).trans (hi.nearer_below hle)
    · exact hi.nearer_above hle

end Proper

/-! ### The search -/

/-- The search ends on the first grid where something is found, if there is one within the tries. -/
theorem search_spec {tries k : ℕ} (hk : k < tries)
    (hfound : (i.onGrid (e - k)).nearest? ≠ none) : ∃ l ≤ k, (i.search tries e).exponent = e - l ∧
      (i.onGrid (e - l)).nearest? = some (i.search tries e).coefficient ∧
      ∀ j < l, (i.onGrid (e - (j : ℕ))).nearest? = none := by
  induction tries generalizing e k with
  | zero => exact absurd hk (Nat.not_lt_zero k)
  | succ tries ih =>
    have hshift (j : ℕ) : e - 1 - j = e - (j + 1 : ℕ) := by
      rw [Nat.cast_succ]
      ring
    rw [search]
    cases hfirst : (i.onGrid e).nearest? with
    | some d => exact ⟨0, Nat.zero_le k, by simp, by simpa using hfirst, nofun⟩
    | none =>
      cases k with
      | zero => simp [hfirst] at hfound
      | succ k =>
        rw [← hshift] at hfound
        obtain ⟨l, hlk, hexponent, hcoefficient, hnone⟩ := ih (Nat.lt_of_succ_lt_succ hk) hfound
        rw [hshift] at hexponent hcoefficient
        refine ⟨l + 1, Nat.succ_le_succ hlk, hexponent, hcoefficient, fun j hj => ?_⟩
        cases j with
        | zero => simpa using hfirst
        | succ j => exact hshift j ▸ hnone j (Nat.lt_of_succ_lt_succ hj)

/-- A positive number has one digit more than the greatest power of ten that is not above it. -/
theorem exists_length_toDigits {n : ℕ} (hn : 0 < n) :
    ∃ l, (Nat.toDigits 10 n).length = l + 1 ∧ 10 ^ l ≤ n ∧ n < 10 ^ (l + 1) := by
  obtain ⟨l, hl⟩ := Nat.exists_eq_add_one_of_ne_zero
    (Nat.length_toDigits_pos (b := 10) (n := n)).ne'
  refine ⟨l, hl, ?_, ?_⟩
  · rcases l.eq_zero_or_pos with rfl | hpos
    · exact hn
    · refine Nat.le_of_not_lt fun hlt => ?_
      have := (Nat.length_toDigits_le_iff (by decide) hpos).2 hlt
      omega
  · exact (Nat.length_toDigits_le_iff (by decide) l.succ_pos).1 hl.le

namespace Proper

variable (hi : i.Proper)
include hi

/-- The leading digit is that of the leading exponent. -/
theorem leadingExponent_spec :
    10 ^ i.leadingExponent ≤ i.center ∧ i.center < 10 ^ (i.leadingExponent + 1) := by
  have hunit : (0 : ℚ) < i.unit := Nat.cast_pos.2 hi.unit_pos
  have hvalue : 0 < i.value := hi.lower_pos.trans hi.lower_lt
  rw [center, le_div_iff₀ hunit, div_lt_iff₀ hunit, leadingExponent]
  split
  · rename_i hle
    obtain ⟨l, hl, hlower, hupper⟩ := exists_length_toDigits (Nat.div_pos hle hi.unit_pos)
    rw [Nat.le_div_iff_mul_le hi.unit_pos] at hlower
    rw [Nat.div_lt_iff_lt_mul hi.unit_pos] at hupper
    rw [hl, Nat.cast_succ, add_sub_cancel_right, ← Nat.cast_succ, zpow_natCast, zpow_natCast]
    exact ⟨by exact_mod_cast hlower, by exact_mod_cast hupper⟩
  · rename_i hlt
    -- the digits are those of the greatest natural number below the reciprocal
    have hle : i.value ≤ i.unit - 1 := by omega
    obtain ⟨l, hl, hlower, hupper⟩ := exists_length_toDigits (Nat.div_pos hle hvalue)
    rw [Nat.le_div_iff_mul_le hvalue] at hlower
    rw [Nat.div_lt_iff_lt_mul hvalue] at hupper
    have hlower : 10 ^ l * i.value < i.unit := by
      have := hi.unit_pos
      omega
    have hupper : i.unit ≤ 10 ^ (l + 1) * i.value := by omega
    rw [hl, zpow_neg, zpow_natCast, Nat.cast_succ, neg_add, neg_add_cancel_right, zpow_neg,
      zpow_natCast, inv_mul_le_iff₀ (by positivity), lt_inv_mul_iff₀ (by positivity)]
    exact ⟨by exact_mod_cast hupper, by exact_mod_cast hlower⟩

/-- The grid of the seventeenth digit has a point in the interval. -/
theorem exists_mem_seventeenth : ∃ d : ℕ, i.Mem (d * 10 ^ (i.leadingExponent - 16)) := by
  have hunit : (0 : ℚ) < i.unit := Nat.cast_pos.2 hi.unit_pos
  have hspacing : (0 : ℚ) < 10 ^ (i.leadingExponent - 16) * i.unit := by positivity
  have hwide : 10 ^ (i.leadingExponent - 16) * i.unit < (i.upper - i.lower : ℚ) := by
    have hle : i.lower ≤ i.upper := (hi.lower_lt.trans hi.lt_upper).le
    have hcast : (i.value : ℚ) < 10 ^ 16 * (i.upper - i.lower) := by
      rw [← Nat.cast_sub hle]
      exact_mod_cast hi.wide
    have hleading := mul_le_mul_of_nonneg_right hi.leadingExponent_spec.1 hunit.le
    rw [hi.center_mul_unit] at hleading
    have hpow : (10 : ℚ) ^ i.leadingExponent = 10 ^ 16 * 10 ^ (i.leadingExponent - 16) := by
      rw [← zpow_natCast, ← zpow_add₀ (by norm_num)]
      congr 1
      omega
    rw [hpow] at hleading
    nlinarith
  -- the first point above the lower end is less than one step above it
  have hnonneg : 0 ≤ i.lower / (10 ^ (i.leadingExponent - 16) * i.unit : ℚ) :=
    div_nonneg (Nat.cast_nonneg _) hspacing.le
  have hfloor := Nat.floor_le hnonneg
  have hsucc := Nat.lt_floor_add_one (i.lower / (10 ^ (i.leadingExponent - 16) * i.unit : ℚ))
  rw [le_div_iff₀ hspacing] at hfloor
  rw [div_lt_iff₀ hspacing] at hsucc
  refine ⟨⌊(i.lower / (10 ^ (i.leadingExponent - 16) * i.unit) : ℚ)⌋₊ + 1, .of_lt_of_lt ?_ ?_⟩
  · rw [Nat.cast_succ, mul_assoc]
    exact hsucc
  · rw [Nat.cast_succ, mul_assoc]
    linarith

theorem not_mem_zero : ¬ i.Mem 0 := by
  have hpos : (0 : ℚ) < i.lower := Nat.cast_pos.2 hi.lower_pos
  rw [Mem, zero_mul]
  split
  · exact fun h => absurd h.1 (not_le.2 hpos)
  · exact fun h => absurd h.1 (not_lt.2 hpos.le)

/-- If a number below the leading power of ten is in the interval, so is that power. -/
theorem mem_leading {p : ℚ} (hp : i.Mem p) (hlt : p < 10 ^ i.leadingExponent) :
    i.Mem (10 ^ i.leadingExponent) :=
  hp.convex hi.mem_center hlt.le hi.leadingExponent_spec.1

/-- Where nothing is found on the grid of a digit, no number in the interval has as few digits. -/
theorem not_hasDigits_of_nearest?_eq_none {n : ℕ}
    (h : (i.onGrid (i.leadingExponent - n)).nearest? = none) {p : ℚ} (hp : i.Mem p) :
    ¬ HasDigits (n + 1) p := by
  intro hdigits
  rcases hdigits.cases i.leadingExponent with ⟨c, rfl⟩ | hlt
  · exact hi.not_mem_of_nearest?_eq_none h c hp
  · have hleading := hi.mem_leading hp hlt
    rw [← pow_mul_zpow_sub i.leadingExponent n] at hleading
    exact hi.not_mem_of_nearest?_eq_none h _ hleading

/-- What is found on the grid of a digit has as many digits, or is the next power of ten. -/
theorem hasDigits_of_nearest?_eq_some {n d : ℕ}
    (h : (i.onGrid (i.leadingExponent - n)).nearest? = some d) :
    HasDigits (n + 1) (d * 10 ^ (i.leadingExponent - n)) := by
  have hnext : ((10 ^ (n + 1) : ℕ) : ℚ) * 10 ^ (i.leadingExponent - n) =
      10 ^ (i.leadingExponent + 1) := by
    rw [← pow_mul_zpow_sub (i.leadingExponent + 1) (n + 1)]
    congr 2
    push_cast
    ring
  have hlt := hi.leadingExponent_spec.2
  rw [← hnext] at hlt
  have hle : d ≤ 10 ^ (n + 1) := by
    -- beyond the power of ten the power itself would be closer
    by_contra hnot
    have hcast : ((10 ^ (n + 1) : ℕ) : ℚ) < d := Nat.cast_lt.2 (not_le.1 hnot)
    have hgt := mul_lt_mul_of_pos_right hcast
      (by positivity : (0 : ℚ) < 10 ^ (i.leadingExponent - n))
    obtain ⟨hmem, hnearer⟩ := hi.nearest?_eq_some h
    have hbetween := hi.mem_center.convex hmem hlt.le hgt.le
    exact absurd ((hnearer _ hbetween).le_of_le hlt.le) (not_le.2 hgt)
  rcases hle.lt_or_eq with hfew | rfl
  · exact ⟨⟨d, _⟩, hfew, rfl⟩
  · refine ⟨⟨1, i.leadingExponent + 1⟩, Nat.one_lt_pow n.succ_ne_zero (by decide), ?_⟩
    rw [hnext, toRat, Nat.cast_one, one_mul]

/-- **What the search finds is the shortest number** of the interval. -/
theorem isShortest_shortest : i.IsShortest i.shortest.toRat := by
  obtain ⟨d, hd⟩ := hi.exists_mem_seventeenth
  obtain ⟨k, -, hexponent, hfound, hnone⟩ := search_spec (by decide : 16 < 17) fun hnone =>
    hi.not_mem_of_nearest?_eq_none hnone d hd
  have hrat : i.shortest.toRat = i.shortest.coefficient * 10 ^ (i.leadingExponent - k) :=
    congrArg (i.shortest.coefficient * 10 ^ · : ℤ → ℚ) hexponent
  have hdigits := hi.hasDigits_of_nearest?_eq_some hfound
  obtain ⟨hmem, hnearer⟩ := hi.nearest?_eq_some hfound
  rw [hrat]
  refine ⟨hmem, fun n p hp hn => ?_, fun p hp hn => ?_⟩
  · rcases Nat.lt_or_ge k n with hkn | hnk
    · exact hdigits.mono hkn
    · cases n with
      | zero =>
        -- without any digits there is only zero, which is outside
        obtain ⟨⟨c, e⟩, hc, rfl⟩ := hn
        obtain rfl : c = 0 := Nat.lt_one_iff.1 hc
        exact absurd hp (by simpa [toRat] using hi.not_mem_zero)
      | succ n => exact absurd hn (hi.not_hasDigits_of_nearest?_eq_none (hnone n hnk) hp)
  · rcases (hn _ hdigits).cases i.leadingExponent with ⟨c, rfl⟩ | hlt
    · exact hnearer c hp
    · -- the leading power of ten is on the grid, and closer than what is below it
      have hmem_leading := hi.mem_leading hp hlt
      rw [← pow_mul_zpow_sub i.leadingExponent k] at hmem_leading
      have hleading := hnearer _ hmem_leading
      rw [pow_mul_zpow_sub] at hleading
      exact hleading.trans (.of_le_of_le hlt.le hi.leadingExponent_spec.1)

end Proper

end Interval

end Decimal

end MarkSweep
