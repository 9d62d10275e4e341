import NucleoMotor.Drive

/-!
# The output and the duty

`_compVolt` is the output in percent.  `run` cuts it off at `100` and writes the duty
`_compVolt / 100`; `stop` subtracts `3` from it, or clears it, and writes `_compVolt` itself as the
duty.

* `Bounded` is the invariant of all runs: `_compVolt ≤ 100`, and the duty is the saturation of
  `_compVolt / 100` or of `_compVolt`.
* `stop_duty_le_iff`: exactly when a call of `stop` does not raise the duty.
* `compVolt_range`: `_compVolt` stays in `[0, 100]` along a run that keeps enough in reserve before
  each call that takes something away from it (`Reserved`).
-/

namespace NucleoMotor

open MotorControl Runs Saturation Regulator

namespace MotorControl.Core

/-- The invariant of the control state. -/
structure Bounded (c : Core ℚ) : Prop where
  le : c.compVolt ≤ 100
  duty : c.motorEnable = unit (c.compVolt / 100) ∨ c.motorEnable = unit c.compVolt

theorem apply_run_compVolt_le (c : Core ℚ) (data : SpeedData ℚ) (refVolt : ℚ) :
    (c.apply data (.run refVolt)).compVolt ≤ 100 := by
  rw [← reg_out, apply_run_reg]
  exact track_out_le

theorem Bounded.duty_nonneg {c : Core ℚ} (h : c.Bounded) : 0 ≤ c.motorEnable := by
  rcases h.duty with hd | hd <;> rw [hd] <;> exact unit_nonneg _

theorem Bounded.apply {c : Core ℚ} (h : c.Bounded) (data : SpeedData ℚ) (k : Call ℚ) :
    (c.apply data k).Bounded := by
  cases k with
  | run refVolt => exact ⟨apply_run_compVolt_le c data refVolt, .inl (apply_run_duty c data refVolt)⟩
  | stop =>
    refine ⟨?_, .inr (apply_stop_duty c data)⟩
    rw [apply_stop_compVolt]
    have := h.le
    split_ifs <;> linarith

theorem bounded_construct (Kp Ki : ℚ) (ratedRPM : ℕ) (data : SpeedData ℚ) :
    (construct Kp Ki ratedRPM data).core.Bounded := by
  have hout := construct_compVolt_nonpos Kp Ki ratedRPM data
  exact ⟨by linarith, .inl (construct_duty Kp Ki ratedRPM data)⟩

end MotorControl.Core

namespace Drive

theorem bounded_run (Kp Ki : ℚ) (ratedRPM : ℕ) (data : SpeedData ℚ) (es : List (Event ℚ)) :
    (exec step (start Kp Ki ratedRPM data) es).motor.core.Bounded :=
  exec_invariant (P := fun d : Drive ℚ => d.motor.core.Bounded)
    (Core.bounded_construct Kp Ki ratedRPM data)
    (fun d e h => step_core_ind d e h fun c _ _ => h.apply d.data c) es

/-! ### The duty under `stop` -/

/-- In the decrement branch: `stop` raises the duty unless it was full already or `_compVolt` is
so small that `_compVolt - 3` does not pass `_compVolt / 100`. -/
theorem unit_sub_three_le_iff {c : Core ℚ} (h : c.Bounded) :
    unit (c.compVolt - 3) ≤ c.motorEnable ↔ c.compVolt ≤ 100 / 33 ∨ c.motorEnable = 1 := by
  have hle := h.le
  rcases le_or_gt c.compVolt (100 / 33) with hsmall | hbig
  · refine iff_of_true ?_ (.inl hsmall)
    rcases h.duty with hd | hd <;> rw [hd]
    · rcases le_total c.compVolt 3 with h3 | h3
      · rw [unit_of_nonpos (by linarith)]
        exact unit_nonneg _
      · exact unit_mono (by linarith)
    · exact unit_mono (by linarith)
  · rcases h.duty with hd | hd
    · -- the duty in force was written by `run`
      have hrun : c.motorEnable = c.compVolt / 100 :=
        hd.trans (unit_of_mem (by linarith) (by linarith))
      rw [hrun]
      constructor
      · intro hu
        right
        rcases le_total 1 (c.compVolt - 3) with h1 | h1
        · rw [unit_of_one_le h1] at hu
          linarith
        · rw [unit_of_mem (by linarith) h1] at hu
          linarith
      · rintro (h' | h')
        · linarith
        · rw [h']
          exact unit_le_one _
    · -- it was written by `stop`, which saturates at once
      have hstop : c.motorEnable = 1 := hd.trans (unit_of_one_le (by linarith))
      rw [hstop]
      exact iff_of_true (unit_le_one _) (.inr rfl)

/-- **Exactly when `stop` does not speed the motor up**, in every state reached from construction:
the call reads no new sample, the measured speed is at most 3 %, `_compVolt` is at most
`100 / 33`, or the duty in force is full already. -/
theorem stop_duty_le_iff (Kp Ki : ℚ) (ratedRPM : ℕ) (data : SpeedData ℚ) (es : List (Event ℚ)) :
    let d := exec step (start Kp Ki ratedRPM data) es
    (d.motor.stop d.data).motorEnable ≤ d.motor.motorEnable ↔
      ¬ d.Fresh ∨ percent d.data.1 ≤ 3 ∨ d.motor.compVolt ≤ 100 / 33 ∨
        d.motor.motorEnable = 1 := by
  intro d
  have hb : d.motor.core.Bounded := bounded_run Kp Ki ratedRPM data es
  have hstop : (d.motor.stop d.data).motorEnable =
      (if d.Fresh then d.motor.core.apply d.data .stop else d.motor.core).motorEnable :=
    congrArg Core.motorEnable (step_call_core d .stop)
  rw [hstop]
  by_cases hf : d.Fresh
  · rw [if_pos hf, Core.apply_stop_duty, Core.apply_stop_compVolt]
    by_cases h3 : 3 < percent d.data.1
    · rw [if_pos h3]
      have hiff := unit_sub_three_le_iff hb
      simp only [hf, not_true_eq_false, not_le.2 h3, false_or]
      exact hiff
    · rw [if_neg h3, unit_of_nonpos le_rfl]
      exact iff_of_true hb.duty_nonneg (.inr (.inl (not_lt.1 h3)))
  · rw [if_neg hf]
    exact iff_of_true le_rfl (.inl hf)

/-- A motor that four calls of `run` have brought to the duty `0.0325` begins to turn, at 1 rpm:
`stop` sets the duty to `0.25`. -/
theorem stop_speeds_up :
    let es : List (Event ℚ) := [.sample 0 100000, .call (.run 1), .sample 0 200000, .call (.run 1),
      .sample 0 300000, .call (.run 1), .sample 0 400000, .call (.run 1), .sample 1 500000]
    let d := exec step (start (4 / 25) (1 / 100) 24 (0, 0)) es
    AllSteps step Forward (start (4 / 25) (1 / 100) 24 (0, 0)) es ∧
      ¬ (d.motor.stop d.data).motorEnable ≤ d.motor.motorEnable := by
  decide +kernel

/-! ### The range of `_compVolt` -/

/-- There is enough for an acting call to take away: `3` for `stop` at more than 3 %, and for `run`
at 0.4 % or more above the reference what an error of `-5` takes, `5 Kp` from the output and `5` a
second from the integrator. -/
def Reserved (d : Drive ℚ) : Event ℚ → Prop
  | .sample _ _ => True
  | .call (.run refVolt) => d.Fresh → refVolt * 100 + 2 / 5 ≤ percent d.data.1 →
      5 * d.motor.picontrol.Kp ≤ d.motor.compVolt ∧
        5 * ((d.data.2 - d.motor.prevTime : ℤ) : ℚ) / 1000000 ≤ d.motor.picontrol.accError_t
  | .call .stop => d.Fresh → 3 < percent d.data.1 → 3 ≤ d.motor.compVolt

instance (d : Drive ℚ) : ∀ e, Decidable (d.Reserved e)
  | .sample _ _ => inferInstanceAs (Decidable True)
  | .call (.run refVolt) => inferInstanceAs (Decidable (d.Fresh →
      refVolt * 100 + 2 / 5 ≤ percent d.data.1 → 5 * d.motor.picontrol.Kp ≤ d.motor.compVolt ∧
        5 * ((d.data.2 - d.motor.prevTime : ℤ) : ℚ) / 1000000 ≤ d.motor.picontrol.accError_t))
  | .call .stop => inferInstanceAs (Decidable (d.Fresh → 3 < percent d.data.1 →
      3 ≤ d.motor.compVolt))

end Drive

namespace MotorControl.Core

/-- The invariant of reserved runs: neither the output nor the integrator is negative. -/
structure Stocked (c : Core ℚ) : Prop where
  Kp : 0 ≤ c.picontrol.Kp
  Ki : 0 ≤ c.picontrol.Ki
  compVolt : 0 ≤ c.compVolt
  accError_t : 0 ≤ c.picontrol.accError_t

variable {c : Core ℚ} {data : SpeedData ℚ}

/-- A step of the regulator that leaves the integrator nonnegative takes away no more than the
proportional signal. -/
theorem Stocked.run (h : c.Stocked) {refVolt : ℚ}
    (hP : 0 ≤ c.compVolt + c.picontrol.Kp * adjustError (refError refVolt data.1))
    (hI : 0 ≤ c.picontrol.accError_t +
      adjustError (refError refVolt data.1) * seconds (data.2 - c.prevTime)) :
    (c.apply data (.run refVolt)).Stocked := by
  have hreg := apply_run_reg c data refVolt
  have hout : (c.apply data (.run refVolt)).compVolt = _ := congrArg State.out hreg
  have hacc : (c.apply data (.run refVolt)).picontrol.accError_t = _ := congrArg State.acc hreg
  refine ⟨h.Kp, h.Ki, ?_, ?_⟩
  · rw [hout, track, le_min_iff, signal, reg_out, reg_acc, gains]
    have hKi := mul_nonneg h.Ki hI
    exact ⟨by norm_num, by linarith⟩
  · rwa [hacc]

/-- Without an error to the negative nothing is taken away. -/
theorem Stocked.run_of_nonneg (h : c.Stocked) {refVolt : ℚ}
    (he : 0 ≤ adjustError (refError refVolt data.1)) :
    (c.apply data (.run refVolt)).Stocked :=
  h.run (add_nonneg h.compVolt (mul_nonneg h.Kp he))
    (add_nonneg h.accError_t (mul_nonneg he (seconds_nonneg _)))

/-- The saturation of the error bounds what is taken away. -/
theorem Stocked.run_of_reserve (h : c.Stocked) (hf : c.prevTime < data.2)
    (hout : 5 * c.picontrol.Kp ≤ c.compVolt)
    (hacc : 5 * ((data.2 - c.prevTime : ℤ) : ℚ) / 1000000 ≤ c.picontrol.accError_t)
    (refVolt : ℚ) : (c.apply data (.run refVolt)).Stocked := by
  have he : -5 ≤ adjustError (refError refVolt data.1) := (abs_le.1 (abs_adjustError_le _)).1
  have hsec0 := seconds_nonneg (data.2 - c.prevTime)
  have hsec := seconds_le (show 0 ≤ data.2 - c.prevTime by omega)
  apply h.run
  · have hP := mul_le_mul_of_nonneg_left he h.Kp
    linarith
  · have hI := mul_le_mul_of_nonneg_right he hsec0
    linarith

theorem Stocked.stop (h : c.Stocked) (hout : 3 < percent data.1 → 3 ≤ c.compVolt) :
    (c.apply data .stop).Stocked := by
  refine ⟨h.Kp, h.Ki, ?_, h.accError_t⟩
  rw [apply_stop_compVolt]
  split_ifs with h3
  · have := hout h3
    linarith
  · exact le_rfl

theorem stocked_construct {Kp Ki : ℚ} (hp : 0 ≤ Kp) (hi : 0 ≤ Ki) (ratedRPM : ℕ)
    {data : SpeedData ℚ} (hdata : 0 < data.2 → percent data.1 ≤ 3) :
    (construct Kp Ki ratedRPM data).core.Stocked := by
  have hout := construct_compVolt Kp Ki ratedRPM data
  rw [if_neg fun h => absurd h.2 (not_lt.2 (hdata h.1))] at hout
  have hpi := construct_picontrol Kp Ki ratedRPM data
  refine ⟨?_, ?_, hout.ge, ?_⟩ <;> rw [hpi]
  · exact hp
  · exact hi
  · exact le_rfl

end MotorControl.Core

namespace Drive

theorem stocked_step {d : Drive ℚ} {e : Event ℚ} (h : d.motor.core.Stocked)
    (he : d.Reserved e) : (d.step e).motor.core.Stocked := by
  refine step_core_ind d e h fun c hc hf => ?_
  subst hc
  cases c with
  | stop => exact h.stop (he hf)
  | run refVolt =>
    by_cases hover : refVolt * 100 + 2 / 5 ≤ percent d.data.1
    · obtain ⟨hout, hacc⟩ := he hf hover
      exact h.run_of_reserve hf hout hacc refVolt
    · apply h.run_of_nonneg
      apply adjustError_nonneg
      rw [refError_rat]
      linarith

/-- **`_compVolt` stays in `[0, 100]` along every run that keeps enough in reserve** before each
call that brakes, if the constructor finds no speed above 3 % in the encoder. -/
theorem compVolt_range {Kp Ki : ℚ} (hp : 0 ≤ Kp) (hi : 0 ≤ Ki) (ratedRPM : ℕ)
    {data : SpeedData ℚ} (hdata : 0 < data.2 → percent data.1 ≤ 3) {es : List (Event ℚ)}
    (hes : AllSteps step Reserved (start Kp Ki ratedRPM data) es) :
    Always step (fun d : Drive ℚ => 0 ≤ d.motor.compVolt ∧ d.motor.compVolt ≤ 100)
      (start Kp Ki ratedRPM data) es := by
  intro n
  have hstocked := hes.always (P := fun d => d.motor.core.Stocked)
    (Core.stocked_construct hp hi ratedRPM hdata) (fun d e h he => stocked_step h he) n
  exact ⟨hstocked.compVolt, (bounded_run Kp Ki ratedRPM data (es.take n)).le⟩

/-- A motor that overshoots half its rated speed is braked, by `run` and by `stop`. -/
theorem compVolt_range_applies :
    Always step (fun d : Drive ℚ => 0 ≤ d.motor.compVolt ∧ d.motor.compVolt ≤ 100)
      (start (4 / 25) (1 / 100) 24 (0, 0)) [.sample 0 500000, .call (.run 1), .sample 24 700000,
        .call (.run (1 / 2)), .sample (1 / 2) 800000, .call .stop] :=
  compVolt_range (by norm_num) (by norm_num) 24 (by decide +kernel) (by decide +kernel)

/-- `stop` on a motor at rated speed that was never driven. -/
theorem compVolt_below_zero :
    let es : List (Event ℚ) := [.sample 24 100000, .call .stop]
    AllSteps step Forward (start (4 / 25) (1 / 100) 24 (0, 0)) es ∧
      ¬ (0 ≤ (exec step (start (4 / 25 : ℚ) (1 / 100) 24 (0, 0)) es).motor.compVolt ∧
        (exec step (start (4 / 25 : ℚ) (1 / 100) 24 (0, 0)) es).motor.compVolt ≤ 100) := by
  decide +kernel

end Drive

end NucleoMotor
