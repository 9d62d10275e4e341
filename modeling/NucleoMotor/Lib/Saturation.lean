import Mathlib.Tactic

/-!
# Saturation and dead bands

Two piecewise linear functions on an ordered field.

* `unit x` saturates `x` to `[0, 1]`.
* `shape lo hi e` saturates `e` to `[-hi, hi]` and is zero on the dead band `(-lo, lo)`.  It jumps
  at the ends of the dead band, and it is still monotone and bounded (`shape_mono`,
  `abs_shape_le`).
-/

namespace Saturation

variable {K : Type*} [Field K] [LinearOrder K]

/-! ### Saturation to the unit interval -/

/-- `x` saturated to `[0, 1]`. -/
def unit (x : K) : K := max 0 (min 1 x)

theorem unit_nonneg (x : K) : 0 ≤ unit x := le_max_left _ _

theorem unit_mono : Monotone (unit : K → K) := fun _ _ h => max_le_max le_rfl (min_le_min le_rfl h)

theorem unit_of_nonpos {x : K} (h : x ≤ 0) : unit x = 0 :=
  max_eq_left ((min_le_right _ _).trans h)

theorem unit_of_mem {x : K} (h0 : 0 ≤ x) (h1 : x ≤ 1) : unit x = x := by
  rw [unit, min_eq_right h1, max_eq_right h0]

variable [IsStrictOrderedRing K]

theorem unit_eq_zero_iff {x : K} : unit x = 0 ↔ x ≤ 0 := by
  constructor
  · intro h
    by_contra hx
    have hpos : 0 < min 1 x := lt_min zero_lt_one (not_le.1 hx)
    exact absurd (hpos.trans_le (le_max_right 0 _)) (not_lt.2 h.le)
  · exact unit_of_nonpos

theorem unit_le_one (x : K) : unit x ≤ 1 := max_le zero_le_one (min_le_left _ _)

theorem unit_of_one_le {x : K} (h : 1 ≤ x) : unit x = 1 := by
  rw [unit, min_eq_left h, max_eq_right zero_le_one]

/-! ### Saturation with a dead band -/

/-- `e` saturated to `[-hi, hi]`, with `0` on the open interval `(-lo, lo)`. -/
def shape (lo hi e : K) : K :=
  if hi < e then hi else if e < -hi then -hi else if e < lo ∧ -lo < e then 0 else e

variable {lo hi : K}

theorem abs_shape_le (h : 0 ≤ hi) (e : K) : |shape lo hi e| ≤ hi := by
  unfold shape
  split_ifs with h1 h2 h3
  · rw [abs_of_nonneg h]
  · rw [abs_neg, abs_of_nonneg h]
  · rwa [abs_zero]
  · exact abs_le.2 ⟨not_lt.1 h2, not_lt.1 h1⟩

/-- The dead band does not break monotonicity: its two jumps go upwards. -/
theorem shape_mono (h0 : 0 ≤ lo) (h : lo ≤ hi) : Monotone (shape lo hi) := by
  intro e e' he
  unfold shape
  split_ifs with h1 h2 h3 h4 h5 h6 h7 h8 h9 h10 h11 h12 <;> grind

end Saturation
