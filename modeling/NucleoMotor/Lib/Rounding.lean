import Mathlib.Data.Int.Log
import Mathlib.Tactic

/-!
# Rounding to a precision

`nearest` rounds to an integer and `rounded p` to `p` binary digits, both to the even one of two
that are equally near.  The exponent has no bounds: there are no infinities, and small numbers are
as precise as large ones.

* `rounded_mono`, `rounded_natCast`: rounding keeps the order of nonnegative numbers, and natural
  numbers up to `2 ^ p` as they are.
* `rounded_le`, `le_rounded`: it changes a nonnegative number by a factor within `1 ± 2 ^ (-p)`.
* `le_of_roundings`, `lt_of_roundings`: the factors of several roundings multiply.
-/

namespace Rounding

variable {K : Type*} [Field K] [LinearOrder K] [IsStrictOrderedRing K] [FloorRing K]

/-! ### Integers -/

/-- The nearest integer, and the even one of two. -/
def nearest (x : K) : ℤ :=
  if Int.fract x < 1 / 2 ∨ Int.fract x = 1 / 2 ∧ Even ⌊x⌋ then ⌊x⌋ else ⌊x⌋ + 1

omit [IsStrictOrderedRing K] in
theorem floor_le_nearest (x : K) : ⌊x⌋ ≤ nearest x := by
  unfold nearest
  split_ifs <;> omega

@[simp] theorem nearest_intCast (n : ℤ) : nearest (n : K) = n := by
  simp [nearest]

theorem abs_nearest_sub_le (x : K) : |(nearest x : K) - x| ≤ 1 / 2 := by
  have hfract : (⌊x⌋ : K) - x = -Int.fract x := by
    unfold Int.fract
    ring
  have h0 := Int.fract_nonneg x
  have h1 := (Int.fract_lt_one x).le
  unfold nearest
  split_ifs with h
  · have hle : Int.fract x ≤ 1 / 2 := h.elim le_of_lt fun h => h.1.le
    rw [hfract, abs_neg, abs_of_nonneg h0]
    exact hle
  · have hge : 1 / 2 ≤ Int.fract x := not_lt.1 fun hlt => h (Or.inl hlt)
    rw [Int.cast_add, Int.cast_one, add_sub_right_comm, hfract, abs_of_nonneg (by linarith)]
    linarith

theorem nearest_mono : Monotone (nearest : K → ℤ) := by
  intro x y hxy
  by_contra hlt
  have hstep : (nearest y : K) + 1 ≤ nearest x := by exact_mod_cast not_le.1 hlt
  -- both are within a half, so that `x` and `y` are the same
  have hx := (abs_le.1 (abs_nearest_sub_le x)).2
  have hy := (abs_le.1 (abs_nearest_sub_le y)).1
  obtain rfl : x = y := by linarith
  exact hlt le_rfl

/-! ### Binary digits -/

variable {p : ℕ} {x y : K}

/-- The unit in the last of the `p` places of `x`. -/
def ulp (p : ℕ) (x : K) : K := 2 ^ (Int.log 2 |x| + 1 - p)

/-- `x` rounded to `p` binary digits. -/
def rounded (p : ℕ) (x : K) : K := nearest (x / ulp p x) * ulp p x

theorem ulp_pos (p : ℕ) (x : K) : 0 < ulp p x := zpow_pos two_pos _

@[simp] theorem rounded_zero (p : ℕ) : rounded p (0 : K) = 0 := by
  have hzero : nearest (0 : K) = 0 := by simpa using nearest_intCast (K := K) 0
  rw [rounded, zero_div, hzero, Int.cast_zero, zero_mul]

theorem rounded_nonneg (h : 0 ≤ x) : 0 ≤ rounded p x := by
  have hle : (0 : ℤ) ≤ nearest (x / ulp p x) :=
    (Int.floor_nonneg.2 (div_nonneg h (ulp_pos p x).le)).trans (floor_le_nearest _)
  exact mul_nonneg (Int.cast_nonneg hle) (ulp_pos p x).le

/-- A whole number of units is kept. -/
theorem rounded_of_eq {n : ℤ} (h : x = n * ulp p x) : rounded p x = x := by
  have hquot : x / ulp p x = n := by
    rw [div_eq_iff (ulp_pos p x).ne']
    exact h
  rw [rounded, hquot, nearest_intCast, ← h]

/-- The powers of two on both sides of `x` bound what it is rounded to. -/
theorem rounded_le_zpow (h : 0 < x) : rounded p x ≤ 2 ^ (Int.log 2 x + 1) := by
  have hulp : ulp p x = 2 ^ (Int.log 2 x + 1 - p) := by rw [ulp, abs_of_pos h]
  have htop : (2 : K) ^ (Int.log 2 x + 1) = ((2 ^ p : ℕ) : ℤ) * ulp p x := by
    rw [hulp, zpow_sub₀ two_ne_zero]
    push_cast
    rw [zpow_natCast]
    field_simp
  have hx : x ≤ 2 ^ (Int.log 2 x + 1) := by
    have hlt := Int.lt_zpow_succ_log_self (R := K) (b := 2) one_lt_two x
    exact_mod_cast hlt.le
  have hquot : x / ulp p x ≤ (((2 ^ p : ℕ) : ℤ) : K) := by
    rw [div_le_iff₀ (ulp_pos p x), ← htop]
    exact hx
  have hnearest := nearest_mono hquot
  rw [nearest_intCast] at hnearest
  rw [htop, rounded]
  exact mul_le_mul_of_nonneg_right (Int.cast_le.2 hnearest) (ulp_pos p x).le

theorem zpow_le_rounded (hp : 0 < p) (h : 0 < x) : 2 ^ Int.log 2 x ≤ rounded p x := by
  have hulp : ulp p x = 2 ^ (Int.log 2 x + 1 - p) := by rw [ulp, abs_of_pos h]
  have hbottom : (2 : K) ^ Int.log 2 x = ((2 ^ (p - 1) : ℕ) : ℤ) * ulp p x := by
    rw [hulp]
    push_cast
    rw [← zpow_natCast, ← zpow_add₀ two_ne_zero]
    congr 1
    omega
  have hx : (2 : K) ^ Int.log 2 x ≤ x := by
    exact_mod_cast Int.zpow_log_le_self (R := K) (b := 2) one_lt_two h
  have hquot : (((2 ^ (p - 1) : ℕ) : ℤ) : K) ≤ x / ulp p x := by
    rw [le_div_iff₀ (ulp_pos p x), ← hbottom]
    exact hx
  have hnearest := nearest_mono hquot
  rw [nearest_intCast] at hnearest
  rw [hbottom, rounded]
  exact mul_le_mul_of_nonneg_right (Int.cast_le.2 hnearest) (ulp_pos p x).le

/-- **Rounding keeps the order.** -/
theorem rounded_mono (hp : 0 < p) (h0 : 0 ≤ x) (h : x ≤ y) : rounded p x ≤ rounded p y := by
  rcases h0.eq_or_lt with rfl | hx
  · rw [rounded_zero]
    exact rounded_nonneg h
  have hy : 0 < y := hx.trans_le h
  rcases (Int.log_mono_right (b := 2) hx h).lt_or_eq with hlt | heq
  · calc rounded p x ≤ 2 ^ (Int.log 2 x + 1) := rounded_le_zpow hx
      _ ≤ 2 ^ Int.log 2 y := zpow_le_zpow_right₀ one_le_two hlt
      _ ≤ rounded p y := zpow_le_rounded hp hy
  · have hulp : ulp p x = ulp p y := by rw [ulp, ulp, abs_of_pos hx, abs_of_pos hy, heq]
    rw [rounded, rounded, hulp]
    refine mul_le_mul_of_nonneg_right (Int.cast_le.2 (nearest_mono ?_)) (ulp_pos p y).le
    exact div_le_div_of_nonneg_right h (ulp_pos p y).le

/-- **What fits into `p` digits is kept.** -/
theorem rounded_natCast (hp : 0 < p) {n : ℕ} (hn : n ≤ 2 ^ p) : rounded p (n : K) = n := by
  rcases Nat.eq_zero_or_pos n with rfl | hpos
  · simp
  have hlog : Int.log 2 |(n : K)| = Nat.log 2 n := by rw [Nat.abs_cast, Int.log_natCast]
  by_cases hlt : Nat.log 2 n + 1 ≤ p
  · refine rounded_of_eq (n := n * 2 ^ (p - (Nat.log 2 n + 1))) ?_
    rw [ulp, hlog]
    push_cast
    rw [mul_assoc, ← zpow_natCast, ← zpow_add₀ two_ne_zero]
    have hzero : ((p - (Nat.log 2 n + 1) : ℕ) : ℤ) + ((Nat.log 2 n : ℤ) + 1 - p) = 0 := by omega
    rw [hzero, zpow_zero, mul_one]
  · -- only the next power of two itself has another digit
    have hle : 2 ^ p ≤ n :=
      (Nat.pow_le_pow_right two_pos (by omega)).trans (Nat.pow_log_le_self 2 hpos.ne')
    obtain rfl : n = 2 ^ p := le_antisymm hn hle
    refine rounded_of_eq (n := 2 ^ (p - 1)) ?_
    rw [ulp, hlog, Nat.log_pow one_lt_two]
    push_cast
    rw [← zpow_natCast (2 : K) (p - 1), ← zpow_natCast (2 : K) p, ← zpow_add₀ two_ne_zero]
    congr 1
    omega

/-- The relative error. -/
theorem abs_rounded_sub_le (h : 0 ≤ x) : |rounded p x - x| ≤ x / 2 ^ p := by
  rcases h.eq_or_lt with rfl | hx
  · simp
  have hulp : ulp p x = 2 ^ (Int.log 2 x + 1 - p) := by rw [ulp, abs_of_pos hx]
  have hpos := ulp_pos p x
  have hsplit : rounded p x - x = (nearest (x / ulp p x) - x / ulp p x) * ulp p x := by
    rw [rounded, sub_mul, div_mul_cancel₀ _ hpos.ne']
  have hhalf : 1 / 2 * ulp p x = 2 ^ Int.log 2 x / 2 ^ p := by
    rw [hulp, zpow_sub₀ two_ne_zero, zpow_add_one₀ two_ne_zero, zpow_natCast]
    ring
  have hlog : (2 : K) ^ Int.log 2 x ≤ x := by
    exact_mod_cast Int.zpow_log_le_self (R := K) (b := 2) one_lt_two hx
  calc |rounded p x - x| = |(nearest (x / ulp p x) : K) - x / ulp p x| * ulp p x := by
        rw [hsplit, abs_mul, abs_of_pos hpos]
    _ ≤ 1 / 2 * ulp p x := mul_le_mul_of_nonneg_right (abs_nearest_sub_le _) hpos.le
    _ = 2 ^ Int.log 2 x / 2 ^ p := hhalf
    _ ≤ x / 2 ^ p := div_le_div_of_nonneg_right hlog (by positivity)

/-- **Rounding changes a number by a factor near `1`.** -/
theorem rounded_le (h : 0 ≤ x) : rounded p x ≤ x * (1 + 1 / 2 ^ p) := by
  have herror := (abs_le.1 (abs_rounded_sub_le (p := p) h)).2
  rw [mul_add, mul_one, mul_one_div]
  linarith

theorem le_rounded (h : 0 ≤ x) : x * (1 - 1 / 2 ^ p) ≤ rounded p x := by
  have herror := (abs_le.1 (abs_rounded_sub_le (p := p) h)).1
  rw [mul_sub, mul_one, mul_one_div]
  linarith

/-! ### Roundings one after the other -/

variable {z loss loss' : K} {n n' : ℕ}

omit [FloorRing K] in
/-- The factors above `1` multiply. -/
theorem le_of_roundings (h : y ≤ x * (1 + 1 / 2 ^ p) ^ n) (h' : z ≤ y * (1 + 1 / 2 ^ p) ^ n') :
    z ≤ x * (1 + 1 / 2 ^ p) ^ (n + n') := by
  calc z ≤ y * (1 + 1 / 2 ^ p) ^ n' := h'
    _ ≤ x * (1 + 1 / 2 ^ p) ^ n * (1 + 1 / 2 ^ p) ^ n' := by gcongr
    _ = x * (1 + 1 / 2 ^ p) ^ (n + n') := by rw [mul_assoc, ← pow_add]

/-- The factors below `1` multiply, and what is lost in between adds up. -/
theorem lt_of_roundings (hp : 0 < p) (hloss : 0 ≤ loss)
    (h : x * (1 - 1 / 2 ^ p) ^ n < y + loss) (h' : y * (1 - 1 / 2 ^ p) ^ n' ≤ z + loss') :
    x * (1 - 1 / 2 ^ p) ^ (n + n') < z + (loss + loss') := by
  have hlt : (1 : K) / 2 ^ p < 1 := by
    rw [div_lt_one (by positivity)]
    exact one_lt_pow₀ one_lt_two hp.ne'
  have hpos : (0 : K) < (1 - 1 / 2 ^ p) ^ n' := pow_pos (sub_pos.2 hlt) n'
  have hone : (1 - 1 / 2 ^ p : K) ^ n' ≤ 1 :=
    pow_le_one₀ (sub_pos.2 hlt).le (sub_le_self 1 (by positivity))
  calc x * (1 - 1 / 2 ^ p) ^ (n + n') = x * (1 - 1 / 2 ^ p) ^ n * (1 - 1 / 2 ^ p) ^ n' := by
        rw [pow_add, mul_assoc]
    _ < (y + loss) * (1 - 1 / 2 ^ p) ^ n' := mul_lt_mul_of_pos_right h hpos
    _ = y * (1 - 1 / 2 ^ p) ^ n' + loss * (1 - 1 / 2 ^ p) ^ n' := add_mul _ _ _
    _ ≤ z + loss' + loss := add_le_add h' (mul_le_of_le_one_right hloss hone)
    _ = z + (loss + loss') := by ring

end Rounding
