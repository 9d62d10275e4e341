import Mathlib.Tactic

/-!
# Cutting the digits of a number out one by one

Over a field with a floor, `digit b v e` is the digit of `v` in base `b` at the place `b ^ (-e)`,
computed on its own as `⌊v * b ^ e⌋ % b`; `truncated b v e` is `v` cut off after that place.

* `sum_digits`: digits computed independently recombine into a truncation.
* `value_eq_truncated`: read as a number, they are the number cut off after the last one.
* `truncated_le`, `lt_truncated_add`: a truncation is below the number by less than one unit.
* `truncated_eq_zero`: nothing is left of a number below the unit of the last place.
* `floor_truncated`, `truncated_mono`: cutting off loses nothing above the last place, and keeps the
  order.
-/

namespace Digits

variable {K : Type*} [Field K] [LinearOrder K] [IsStrictOrderedRing K] [FloorRing K]
variable {b : ℕ} (v : K) (e : ℤ)

/-- The digit of `v` in base `b` at the place `b ^ (-e)`. -/
def digit (b : ℕ) (v : K) (e : ℤ) : ℤ := ⌊v * (b : K) ^ e⌋ % b

/-- The number `v` cut off after the place `b ^ (-e)`. -/
def truncated (b : ℕ) (v : K) (e : ℤ) : K := ⌊v * (b : K) ^ e⌋ * (b : K) ^ (-e)

/-- The number with the `d` digits `x` in base `b`, `k` of them before the point. -/
def value (K : Type*) [Field K] (b d k : ℕ) (x : ℕ → ℕ) : K :=
  ∑ i ∈ Finset.range d, (x i : K) * (b : K) ^ ((k : ℤ) - 1 - i)

theorem floor_succ (hb : 0 < b) :
    ⌊v * (b : K) ^ (e + 1)⌋ = b * ⌊v * (b : K) ^ e⌋ + digit b v (e + 1) := by
  have hb' : (b : K) ≠ 0 := by exact_mod_cast hb.ne'
  have hdiv : v * (b : K) ^ e = v * (b : K) ^ (e + 1) / b := by
    rw [zpow_add_one₀ hb']
    field_simp
  rw [hdiv, Int.floor_div_natCast, digit, Int.mul_ediv_add_emod]

/-- One more digit extends the truncation by its place value. -/
theorem truncated_succ (hb : 0 < b) :
    truncated b v (e + 1) = truncated b v e + digit b v (e + 1) * (b : K) ^ (-(e + 1)) := by
  have hb' : (b : K) ≠ 0 := by exact_mod_cast hb.ne'
  have hunit : (b : K) ^ (-e) = b * (b : K) ^ (-(e + 1)) := by
    rw [neg_add, zpow_add₀ hb', zpow_neg_one]
    field_simp
  rw [truncated, floor_succ v e hb, truncated, hunit]
  push_cast
  ring

/-- **Digits computed independently recombine**: the digits of the `m` places after `b ^ (-e)` make
up the difference of the truncations. -/
theorem sum_digits (hb : 0 < b) (m : ℕ) :
    ∑ i ∈ Finset.range m, (digit b v (e + i + 1) : K) * (b : K) ^ (-(e + i + 1)) =
      truncated b v (e + m) - truncated b v e := by
  induction m with
  | zero => simp
  | succ m ih =>
    have hstep := truncated_succ v (e + m) hb
    rw [Finset.sum_range_succ, ih, Nat.cast_add_one, ← add_assoc, hstep]
    ring

theorem truncated_le (hb : 0 < b) : truncated b v e ≤ v := by
  have hb' : (0 : K) < b := by exact_mod_cast hb
  have hfloor := Int.floor_le (v * (b : K) ^ e)
  rw [truncated, zpow_neg, ← div_eq_mul_inv, div_le_iff₀ (zpow_pos hb' e)]
  exact hfloor

theorem lt_truncated_add (hb : 0 < b) : v < truncated b v e + (b : K) ^ (-e) := by
  have hb' : (0 : K) < b := by exact_mod_cast hb
  have hfloor := Int.lt_floor_add_one (v * (b : K) ^ e)
  rw [truncated, ← add_one_mul, zpow_neg, ← div_eq_mul_inv, lt_div_iff₀ (zpow_pos hb' e)]
  exact hfloor

theorem truncated_eq_zero (hb : 0 < b) (h0 : 0 ≤ v) (h : v < (b : K) ^ (-e)) :
    truncated b v e = 0 := by
  have hb' : (0 : K) < b := by exact_mod_cast hb
  have hpos := zpow_pos hb' e
  have hfloor : ⌊v * (b : K) ^ e⌋ = 0 := by
    rw [Int.floor_eq_zero_iff]
    rw [zpow_neg, ← one_div, lt_div_iff₀ hpos] at h
    exact ⟨by positivity, h⟩
  rw [truncated, hfloor, Int.cast_zero, zero_mul]

theorem truncated_nonneg {v : K} (h0 : 0 ≤ v) : 0 ≤ truncated b v e := by
  have hfloor : 0 ≤ ⌊v * (b : K) ^ e⌋ := Int.floor_nonneg.2 (by positivity)
  exact mul_nonneg (by exact_mod_cast hfloor) (by positivity)

/-- Above the last place a truncation is the number. -/
theorem floor_truncated (hb : 0 < b) {e e' : ℤ} (he : e' ≤ e) :
    ⌊truncated b v e * (b : K) ^ e'⌋ = ⌊v * (b : K) ^ e'⌋ := by
  have hb' : (b : K) ≠ 0 := by exact_mod_cast hb.ne'
  obtain ⟨n, rfl⟩ : ∃ n : ℕ, e = e' + n := ⟨(e - e').toNat, by omega⟩
  have hscale (x : K) : x * (b : K) ^ (-(e' + n)) * (b : K) ^ e' = x / (b ^ n : ℕ) := by
    rw [mul_assoc, ← zpow_add₀ hb', show -(e' + (n : ℤ)) + e' = -n by ring, zpow_neg, zpow_natCast]
    push_cast
    rw [div_eq_mul_inv]
  have hv : v * (b : K) ^ e' = v * (b : K) ^ (e' + n) / (b ^ n : ℕ) := by
    rw [← hscale, mul_assoc v, ← zpow_add₀ hb', add_neg_cancel, zpow_zero, mul_one]
  rw [truncated, hscale, hv, Int.floor_div_natCast, Int.floor_div_natCast, Int.floor_intCast]

theorem truncated_mono (hb : 0 < b) {v w : K} (h : v ≤ w) : truncated b v e ≤ truncated b w e := by
  have hb' : (0 : K) < b := by exact_mod_cast hb
  have hfloor : ⌊v * (b : K) ^ e⌋ ≤ ⌊w * (b : K) ^ e⌋ :=
    Int.floor_le_floor (mul_le_mul_of_nonneg_right h (zpow_pos hb' e).le)
  have hcast : (⌊v * (b : K) ^ e⌋ : K) ≤ ⌊w * (b : K) ^ e⌋ := by exact_mod_cast hfloor
  exact mul_le_mul_of_nonneg_right hcast (zpow_pos hb' _).le

/-- **The digits cut out independently make up the truncated number.** -/
theorem value_eq_truncated (hb : 0 < b) {d k : ℕ} {x : ℕ → ℕ} (h0 : 0 ≤ v) (hv : v < (b : K) ^ k)
    (hx : ∀ i < d, (x i : ℤ) = digit b v ((i : ℤ) + 1 - k)) :
    value K b d k x = truncated b v (-k + d) := by
  have hzero : truncated b v (-k) = 0 := truncated_eq_zero v (-k) hb h0 (by simpa using hv)
  have hsum := sum_digits v (-k) hb d
  rw [hzero, sub_zero] at hsum
  rw [← hsum, value]
  refine Finset.sum_congr rfl fun i hi => ?_
  have hdigit := hx i (Finset.mem_range.1 hi)
  have hplace : -(-(k : ℤ) + i + 1) = k - 1 - i := by ring
  rw [show -(k : ℤ) + i + 1 = i + 1 - k by ring] at hplace ⊢
  rw [← hdigit, hplace, Int.cast_natCast]

/-- A number with `d` digits is a multiple of the unit of the last one. -/
theorem value_eq_mul (K : Type*) [Field K] [LinearOrder K] [IsStrictOrderedRing K] (hb : 0 < b)
    (d k : ℕ) (x : ℕ → ℕ) : value K b d k x =
      (∑ i ∈ Finset.range d, x i * b ^ (d - 1 - i) : ℕ) * (b : K) ^ ((k : ℤ) - d) := by
  have hb' : (b : K) ≠ 0 := by exact_mod_cast hb.ne'
  rw [value, Nat.cast_sum, Finset.sum_mul]
  refine Finset.sum_congr rfl fun i hi => ?_
  have hi := Finset.mem_range.1 hi
  rw [Nat.cast_mul, Nat.cast_pow, mul_assoc, ← zpow_natCast (b : K), ← zpow_add₀ hb']
  congr 2
  omega

/-- The number with `d` digits that a number exceeds by less than a unit is its truncation. -/
theorem truncated_eq_value (hb : 0 < b) {d k : ℕ} {x : ℕ → ℕ} (hle : value K b d k x ≤ v)
    (hlt : v < value K b d k x + (b : K) ^ ((k : ℤ) - d)) :
    truncated b v (-k + d) = value K b d k x := by
  have hb' : (0 : K) < b := by exact_mod_cast hb
  have hunit : (b : K) ^ (-(k : ℤ) + d) = ((b : K) ^ ((k : ℤ) - d))⁻¹ := by
    rw [← zpow_neg]
    congr 1
    ring
  have hpos := zpow_pos hb' ((k : ℤ) - d)
  rw [value_eq_mul K hb] at hle hlt ⊢
  set n := ∑ i ∈ Finset.range d, x i * b ^ (d - 1 - i)
  have hfloor : ⌊v * (b : K) ^ (-(k : ℤ) + d)⌋ = n := by
    rw [Int.floor_eq_iff, hunit, ← div_eq_mul_inv, le_div_iff₀ hpos, div_lt_iff₀ hpos, add_mul,
      one_mul, Int.cast_natCast]
    exact ⟨hle, hlt⟩
  rw [truncated, hfloor, Int.cast_natCast, show -(-(k : ℤ) + d) = k - d by ring]

end Digits
