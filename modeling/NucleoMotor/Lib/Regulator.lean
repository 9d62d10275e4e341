import Mathlib.Tactic

/-!
# Incremental PI regulators with an output ceiling

The state of the regulator is its output and the time integral of its error; a step with error
`e` over a time `dt` first integrates and then adds the PI signal to the output, which is cut off
at `ceil` from above.

* `follow`: a sequence of steps.  `follow_out`, `follow_le_iff`: while the closed form `law`, a
  double sum over the errors, does not exceed the ceiling, it is the output.
* `track_mono`: with nonnegative gains a step is monotone in the state and the error.
* `abs_track_out_sub_le`: the change of the output by one step.
* `repeated_acc`, `repeated_out_ge`, `repeated_out_ceil`: `n` steps with a constant error.  A
  positive error brings the output to the ceiling while the integral grows on, and after that a
  negative error leaves the output at the ceiling for as long as the integral outweighs it.
* `track_out_lt`: with the integral used up, one step with a negative error leaves the ceiling.
-/

namespace Regulator

/-- The gains and the output ceiling. -/
structure Gains (K : Type*) where
  kp : K
  ki : K
  ceil : K

/-- The output and the accumulated error. -/
@[ext] structure State (K : Type*) where
  out : K
  acc : K

variable {K : Type*} [Field K] [LinearOrder K]

/-- The PI signal for error `e` over `dt`, added to the output by a step. -/
def signal (g : Gains K) (acc e dt : K) : K := g.kp * e + g.ki * (acc + e * dt)

/-- One step of the regulator. -/
def track (g : Gains K) (s : State K) (e dt : K) : State K where
  out := min g.ceil (s.out + signal g s.acc e dt)
  acc := s.acc + e * dt

variable {g : Gains K} {s t : State K} {e e' dt : K}

theorem track_out_le : (track g s e dt).out ≤ g.ceil := min_le_left _ _

/-! ### Sequences of errors -/

open Finset

/-- The state after the first `n` of the errors `e` over the times `dt`. -/
def follow (g : Gains K) (s : State K) (e dt : ℕ → K) : ℕ → State K
  | 0 => s
  | n + 1 => track g (follow g s e dt n) (e n) (dt n)

/-- The output without the ceiling, in closed form. -/
def law (g : Gains K) (s : State K) (e dt : ℕ → K) (n : ℕ) : K :=
  s.out + ∑ i ∈ range n, (g.kp * e i + g.ki * (s.acc + ∑ j ∈ range (i + 1), e j * dt j))

section Follow

variable {e dt : ℕ → K} {n : ℕ}

theorem follow_acc (n : ℕ) :
    (follow g s e dt n).acc = s.acc + ∑ j ∈ range n, e j * dt j := by
  induction n with
  | zero => simp [follow]
  | succ n ih => rw [follow, track, ih, sum_range_succ, add_assoc]

theorem law_succ (n : ℕ) :
    law g s e dt (n + 1) = law g s e dt n + signal g (follow g s e dt n).acc (e n) (dt n) := by
  rw [signal, follow_acc, law, law, sum_range_succ, sum_range_succ _ n]
  ring

/-- **The closed form of the output**, as long as it does not pass the ceiling. -/
theorem follow_out (h : ∀ k, k ≤ n → law g s e dt k ≤ g.ceil) :
    (follow g s e dt n).out = law g s e dt n := by
  induction n with
  | zero => simp [follow, law]
  | succ n ih =>
    have hn := ih fun k hk => h k (by omega)
    have hsucc := h (n + 1) le_rfl
    rw [law_succ, ← hn] at hsucc
    rw [law_succ, ← hn, follow, track, min_eq_right hsucc]

/-- The output stays within a bound below the ceiling exactly when the closed form does. -/
theorem follow_le_iff {c : K} (hc : c < g.ceil) :
    (∀ k, k ≤ n → (follow g s e dt k).out ≤ c) ↔ ∀ k, k ≤ n → law g s e dt k ≤ c := by
  constructor
  · intro h k hk
    have hlaw : (follow g s e dt k).out = law g s e dt k := by
      induction k with
      | zero => simp [follow, law]
      | succ k ih =>
        -- an output below the ceiling has not been cut off
        have hsucc := h (k + 1) hk
        rw [follow, track, min_le_iff] at hsucc
        have hcut := hsucc.resolve_left (not_le.2 hc)
        rw [law_succ, ← ih (by omega), follow, track]
        exact min_eq_right (hcut.trans hc.le)
    rw [← hlaw]
    exact h k hk
  · intro h k hk
    rw [follow_out fun j hj => (h j (by omega)).trans hc.le]
    exact h k hk

end Follow

/-! ### Monotonicity and bounds -/

variable [IsStrictOrderedRing K]

theorem signal_mono (hp : 0 ≤ g.kp) (hi : 0 ≤ g.ki) (hdt : 0 ≤ dt) {acc acc' : K}
    (hacc : acc ≤ acc') (he : e ≤ e') : signal g acc e dt ≤ signal g acc' e' dt := by
  unfold signal
  gcongr

theorem track_mono (hp : 0 ≤ g.kp) (hi : 0 ≤ g.ki) (hdt : 0 ≤ dt) (hout : s.out ≤ t.out)
    (hacc : s.acc ≤ t.acc) (he : e ≤ e') :
    (track g s e dt).out ≤ (track g t e' dt).out ∧
      (track g s e dt).acc ≤ (track g t e' dt).acc := by
  refine ⟨min_le_min le_rfl (add_le_add hout (signal_mono hp hi hdt hacc he)), ?_⟩
  simp only [track]
  gcongr

/-- Without positive errors nothing becomes positive. -/
theorem track_nonpos (hp : 0 ≤ g.kp) (hi : 0 ≤ g.ki) (hdt : 0 ≤ dt) (hout : s.out ≤ 0)
    (hacc : s.acc ≤ 0) (he : e ≤ 0) :
    (track g s e dt).out ≤ 0 ∧ (track g s e dt).acc ≤ 0 := by
  have hedt : e * dt ≤ 0 := mul_nonpos_of_nonpos_of_nonneg he hdt
  have hP : g.kp * e ≤ 0 := mul_nonpos_of_nonneg_of_nonpos hp he
  have hI : g.ki * (s.acc + e * dt) ≤ 0 := mul_nonpos_of_nonneg_of_nonpos hi (by linarith)
  simp only [track, signal]
  exact ⟨(min_le_right _ _).trans (by linarith), by linarith⟩

/-- A sequence without positive errors keeps a regulator without output so. -/
theorem follow_nonpos {e dt : ℕ → K} (hp : 0 ≤ g.kp) (hi : 0 ≤ g.ki) (hdt : ∀ i, 0 ≤ dt i)
    (hout : s.out ≤ 0) (hacc : s.acc ≤ 0) (he : ∀ i, e i ≤ 0) (n : ℕ) :
    (follow g s e dt n).out ≤ 0 ∧ (follow g s e dt n).acc ≤ 0 := by
  induction n with
  | zero => exact ⟨hout, hacc⟩
  | succ n ih => exact track_nonpos hp hi (hdt n) ih.1 ih.2 (he n)

/-- The ceiling only shortens a step. -/
theorem abs_track_out_sub_le (h : s.out ≤ g.ceil) :
    |(track g s e dt).out - s.out| ≤ |signal g s.acc e dt| := by
  simp only [track]
  rcases le_total g.ceil (s.out + signal g s.acc e dt) with hc | hc
  · -- the ceiling lies between the old output and the sum
    rw [min_eq_left hc, abs_of_nonneg (by linarith)]
    exact (by linarith : g.ceil - s.out ≤ signal g s.acc e dt).trans (le_abs_self _)
  · rw [min_eq_right hc, add_sub_cancel_left]

/-! ### Constant errors -/

/-- `n` steps with the same error and timestep. -/
def repeated (g : Gains K) (e dt : K) (n : ℕ) (s : State K) : State K :=
  (fun s => track g s e dt)^[n] s

omit [IsStrictOrderedRing K] in
theorem repeated_succ (n : ℕ) :
    repeated g e dt (n + 1) s = track g (repeated g e dt n s) e dt :=
  Function.iterate_succ_apply' _ n s

theorem repeated_acc (n : ℕ) : (repeated g e dt n s).acc = s.acc + n * (e * dt) := by
  induction n with
  | zero => simp [repeated]
  | succ n ih =>
    rw [repeated_succ, track, ih]
    push_cast
    ring

/-- The proportional part alone brings the output up. -/
theorem repeated_out_ge (hi : 0 ≤ g.ki) (he : 0 ≤ e) (hp : 0 ≤ g.kp) (hdt : 0 ≤ dt)
    (hacc : 0 ≤ s.acc) (n : ℕ) :
    min g.ceil (s.out + n * (g.kp * e)) ≤ (repeated g e dt n s).out := by
  induction n with
  | zero => simp [repeated]
  | succ n ih =>
    have hI : 0 ≤ g.ki * ((repeated g e dt n s).acc + e * dt) := by
      rw [repeated_acc]
      positivity
    have hP : 0 ≤ g.kp * e := mul_nonneg hp he
    rw [repeated_succ, track]
    refine le_min (min_le_left _ _) ?_
    simp only [signal]
    push_cast
    rcases min_le_iff.1 ih with h | h
    · exact (min_le_left _ _).trans (by linarith)
    · exact (min_le_right _ _).trans (by linarith)

/-- From the ceiling, a negative error moves the output only once the integral is used up. -/
theorem repeated_out_ceil (hi : 0 ≤ g.ki) (he : e ≤ 0) (hdt : 0 ≤ dt) (hout : s.out = g.ceil)
    {n : ℕ} (hn : 0 ≤ g.kp * e + g.ki * (s.acc + n * (e * dt))) :
    (repeated g e dt n s).out = g.ceil := by
  have hedt : e * dt ≤ 0 := mul_nonpos_of_nonpos_of_nonneg he hdt
  induction n with
  | zero => exact hout
  | succ n ih =>
    have hle : g.ki * (s.acc + (n + 1 : ℕ) * (e * dt)) ≤ g.ki * (s.acc + n * (e * dt)) := by
      push_cast
      exact mul_le_mul_of_nonneg_left (by linarith) hi
    rw [repeated_succ, track, ih (by linarith)]
    refine min_eq_left ?_
    have hsignal : signal g (repeated g e dt n s).acc e dt =
        g.kp * e + g.ki * (s.acc + (n + 1 : ℕ) * (e * dt)) := by
      rw [signal, repeated_acc]
      push_cast
      ring
    rw [hsignal]
    linarith

theorem track_out_lt (hp : 0 < g.kp) (hi : 0 ≤ g.ki) (hdt : 0 ≤ dt) (he : e < 0)
    (hacc : s.acc ≤ 0) (hout : s.out ≤ g.ceil) : (track g s e dt).out < g.ceil := by
  have hP : g.kp * e < 0 := mul_neg_of_pos_of_neg hp he
  have hI : g.ki * (s.acc + e * dt) ≤ 0 := by
    refine mul_nonpos_of_nonneg_of_nonpos hi ?_
    have := mul_nonpos_of_nonpos_of_nonneg he.le hdt
    linarith
  refine (min_le_right _ _).trans_lt ?_
  simp only [signal]
  linarith

end Regulator
