import NucleoMotor.Output

/-!
# The slew rate

The error of `run` is saturated to `[-5, 5]`, so the integral grows by at most `5` a second of the
time consumed, `prevTime`: `stop` consumes time without integrating, and a timestep cut off to 32
bits integrates less.  The PI signal of a call is then at most `5 Kp` plus `Ki` times that, and the
ceiling only shortens the step of `_compVolt`.
-/

namespace NucleoMotor

open MotorControl Runs Saturation Regulator

namespace MotorControl.Core

/-- The invariant of the control state: what the integral can have collected by `prevTime`. -/
structure Slow (c : Core ℚ) : Prop where
  prevTime : 0 ≤ c.prevTime
  accError_t : |c.picontrol.accError_t| ≤ 5 * c.prevTime / 1000000

variable {c : Core ℚ} {data : SpeedData ℚ}

/-- The integral after a call of `run` that finds a sample newer than `prevTime`. -/
theorem Slow.integral (h : c.Slow) (hf : c.prevTime < data.2) (refVolt : ℚ) :
    |c.picontrol.accError_t +
      adjustError (refError refVolt data.1) * seconds (data.2 - c.prevTime)| ≤
        5 * data.2 / 1000000 := by
  have hsec : seconds (data.2 - c.prevTime) ≤ (data.2 - c.prevTime) / 1000000 := by
    have hle := seconds_le (show 0 ≤ data.2 - c.prevTime by omega)
    rwa [Int.cast_sub] at hle
  have hterm : |adjustError (refError refVolt data.1) * seconds (data.2 - c.prevTime)| ≤
      5 * ((data.2 - c.prevTime) / 1000000) := by
    rw [abs_mul, abs_of_nonneg (seconds_nonneg _)]
    exact mul_le_mul (abs_adjustError_le _) hsec (seconds_nonneg _) (by norm_num)
  have hacc := h.accError_t
  refine (abs_add_le _ _).trans ?_
  linarith

theorem Slow.apply (h : c.Slow) (hf : c.prevTime < data.2) (k : Call ℚ) :
    (c.apply data k).Slow := by
  have h0 := h.prevTime
  cases k with
  | run refVolt =>
    refine ⟨by rw [apply_prevTime]; omega, ?_⟩
    have hacc := congrArg State.acc (apply_run_reg c data refVolt)
    rw [reg_acc, track] at hacc
    rw [hacc, apply_prevTime]
    exact h.integral hf refVolt
  | stop =>
    refine ⟨by rw [apply_prevTime]; omega, ?_⟩
    -- `stop` consumes the time and leaves the integral
    rw [apply_stop_picontrol, apply_prevTime]
    have hlt : (c.prevTime : ℚ) < data.2 := by exact_mod_cast hf
    have hacc := h.accError_t
    linarith

/-- One fresh call of `run` moves `_compVolt` by at most the largest PI signal. -/
theorem Slow.abs_sub_le (h : c.Slow) (hle : c.compVolt ≤ 100) (hf : c.prevTime < data.2)
    (refVolt : ℚ) (hp : 0 ≤ c.picontrol.Kp) (hi : 0 ≤ c.picontrol.Ki) :
    |(c.apply data (.run refVolt)).compVolt - c.compVolt| ≤
      5 * c.picontrol.Kp + 5 * c.picontrol.Ki * data.2 / 1000000 := by
  have hout := congrArg State.out (apply_run_reg c data refVolt)
  rw [reg_out] at hout
  rw [hout]
  refine (abs_track_out_sub_le (s := c.reg) hle).trans ?_
  have hP : |c.picontrol.Kp * adjustError (refError refVolt data.1)| ≤ c.picontrol.Kp * 5 := by
    rw [abs_mul, abs_of_nonneg hp]
    exact mul_le_mul_of_nonneg_left (abs_adjustError_le _) hp
  have hI : |c.picontrol.Ki * (c.picontrol.accError_t +
      adjustError (refError refVolt data.1) * seconds (data.2 - c.prevTime))| ≤
        c.picontrol.Ki * (5 * data.2 / 1000000) := by
    rw [abs_mul, abs_of_nonneg hi]
    exact mul_le_mul_of_nonneg_left (h.integral hf refVolt) hi
  refine (abs_add_le _ _).trans ((add_le_add hP hI).trans_eq ?_)
  ring

theorem slow_construct (Kp Ki : ℚ) (ratedRPM : ℕ) (data : SpeedData ℚ) :
    (construct Kp Ki ratedRPM data).core.Slow := by
  have h0 : 0 ≤ (construct Kp Ki ratedRPM data).core.prevTime := by
    rw [construct_core]
    split_ifs with h
    · rw [apply_prevTime]
      exact h.le
    · exact le_rfl
  refine ⟨h0, ?_⟩
  rw [construct_picontrol]
  have hcast : (0 : ℚ) ≤ (construct Kp Ki ratedRPM data).core.prevTime := by exact_mod_cast h0
  rw [PIcontrol.construct, lit_rat, abs_zero]
  positivity

end MotorControl.Core

namespace Drive

theorem slow_run (Kp Ki : ℚ) (ratedRPM : ℕ) (data : SpeedData ℚ) (es : List (Event ℚ)) :
    (exec step (start Kp Ki ratedRPM data) es).motor.core.Slow :=
  exec_invariant (P := fun d : Drive ℚ => d.motor.core.Slow)
    (Core.slow_construct Kp Ki ratedRPM data)
    (fun d e h => step_core_ind d e h fun c _ hf => h.apply hf c) es

/-- **The slew bound**: in every state reached from construction the integral is at most `5` a
second of the time consumed, and a call of `run` changes `_compVolt` by at most
`5 Kp + 5 Ki prevTime`, with `prevTime` in seconds after the call. -/
theorem slew_bound {Kp Ki : ℚ} (hp : 0 ≤ Kp) (hi : 0 ≤ Ki) (ratedRPM : ℕ) (data : SpeedData ℚ)
    (es : List (Event ℚ)) (refVolt : ℚ) :
    let d := exec step (start Kp Ki ratedRPM data) es
    let m := (d.motor.run d.data refVolt).2
    |d.motor.picontrol.accError_t| ≤ 5 * d.motor.prevTime / 1000000 ∧
      |m.compVolt - d.motor.compVolt| ≤ 5 * Kp + 5 * Ki * m.prevTime / 1000000 := by
  intro d m
  have hslow : d.motor.core.Slow := slow_run Kp Ki ratedRPM data es
  refine ⟨hslow.accError_t, ?_⟩
  have hgains := exec_gains (start Kp Ki ratedRPM data) es
  rw [start_gains, Core.gains, Gains.mk.injEq] at hgains
  obtain ⟨hKp, hKi, -⟩ := hgains
  by_cases hf : d.Fresh
  · have hcore : m.core = d.motor.core.apply d.data (.run refVolt) :=
      step_call_core_fresh hf (.run refVolt)
    have hle := (bounded_run Kp Ki ratedRPM data es).le
    have hstep := hslow.abs_sub_le hle hf refVolt (hKp ▸ hp) (hKi ▸ hi)
    have htime : m.prevTime = d.data.2 := by
      have h := congrArg Core.prevTime hcore
      rwa [Core.apply_prevTime] at h
    rw [← hcore, hKp, hKi, ← htime] at hstep
    exact hstep
  · -- a stale call changes nothing
    have hcore : m.core = d.motor.core := step_call_core_stale hf (.run refVolt)
    have hout : m.compVolt = d.motor.compVolt := congrArg Core.compVolt hcore
    have htime : (0 : ℚ) ≤ m.prevTime := by
      have h0 : 0 ≤ m.core.prevTime := hcore ▸ hslow.prevTime
      exact_mod_cast h0
    rw [hout, sub_self, abs_zero]
    positivity

/-- A stalled motor after one second, at its second call. -/
theorem slew_bound_applies :
    let d := exec step (start (4 / 25 : ℚ) (1 / 100) 24 (0, 0))
      [.sample 0 500000, .call (.run 1), .sample 0 1000000]
    let m := (d.motor.run d.data 1).2
    |d.motor.picontrol.accError_t| ≤ 5 * d.motor.prevTime / 1000000 ∧
      |m.compVolt - d.motor.compVolt| ≤
        5 * (4 / 25) + 5 * (1 / 100) * m.prevTime / 1000000 :=
  slew_bound (by norm_num) (by norm_num) 24 (0, 0)
    [.sample 0 500000, .call (.run 1), .sample 0 1000000] 1

end Drive

end NucleoMotor
