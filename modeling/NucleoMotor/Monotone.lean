import NucleoMotor.Drive

/-!
# Monotonicity in the reference

Two runs on the same encoder samples and the same sequence of calls, the references of the first
never above those of the second: the output, the integrator and the duty of the first then never
exceed those of the second.  `Core.Below` is the relation that both runs keep; the stale calls and
the two branches of `stop` keep it because `prevTime` and the measured speed are the same.
-/

namespace NucleoMotor

open MotorControl Runs Saturation Regulator

/-- The same call, with a reference at most as large. -/
inductive MotorControl.Call.RefLe : Call ℚ → Call ℚ → Prop
  | run {r r' : ℚ} (h : r ≤ r') : RefLe (.run r) (.run r')
  | stop : RefLe .stop .stop

/-- The same event, with a reference at most as large. -/
inductive Event.RefLe : Event ℚ → Event ℚ → Prop
  | sample (speed : ℚ) (time : ℤ) : RefLe (.sample speed time) (.sample speed time)
  | call {c c' : Call ℚ} (h : c.RefLe c') : RefLe (.call c) (.call c')

namespace MotorControl.Core

/-- The order that two runs keep, with common nonnegative gains and a common `prevTime`. -/
structure Below (c c' : Core ℚ) : Prop where
  gains : c.gains = c'.gains
  kp : 0 ≤ c'.gains.kp
  ki : 0 ≤ c'.gains.ki
  prevTime : c.prevTime = c'.prevTime
  compVolt : c.compVolt ≤ c'.compVolt
  accError_t : c.picontrol.accError_t ≤ c'.picontrol.accError_t
  motorEnable : c.motorEnable ≤ c'.motorEnable

theorem refError_mono (speed : ℚ) : Monotone (fun refVolt => refError refVolt speed) := by
  intro r r' h
  simp only [refError_rat]
  linarith

theorem Below.apply {c c' : Core ℚ} (h : c.Below c') (data : SpeedData ℚ) {k k' : Call ℚ}
    (hk : k.RefLe k') : (c.apply data k).Below (c'.apply data k') := by
  cases hk with
  | @run r r' hr =>
    have htrack := track_mono (s := c.reg) (t := c'.reg) h.kp h.ki
      (seconds_nonneg (data.2 - c'.prevTime)) h.compVolt h.accError_t
      (adjustError_mono (refError_mono data.1 hr))
    have hreg := apply_run_reg c data r
    rw [h.gains, h.prevTime] at hreg
    rw [← hreg, ← apply_run_reg c' data r'] at htrack
    refine ⟨by simpa using h.gains, by simpa using h.kp, by simpa using h.ki, by simp, htrack.1,
      htrack.2, ?_⟩
    rw [apply_run_duty, apply_run_duty]
    exact unit_mono (div_le_div_of_nonneg_right htrack.1 (by norm_num))
  | stop =>
    have hout : (c.apply data .stop).compVolt ≤ (c'.apply data .stop).compVolt := by
      rw [apply_stop_compVolt, apply_stop_compVolt]
      have := h.compVolt
      split_ifs <;> linarith
    refine ⟨by simpa using h.gains, by simpa using h.kp, by simpa using h.ki, by simp, hout,
      by simpa using h.accError_t, ?_⟩
    rw [apply_stop_duty, apply_stop_duty]
    exact unit_mono hout

theorem below_refl {c : Core ℚ} (hp : 0 ≤ c.gains.kp) (hi : 0 ≤ c.gains.ki) : c.Below c :=
  ⟨rfl, hp, hi, rfl, le_rfl, le_rfl, le_rfl⟩

end MotorControl.Core

namespace Drive

/-- The encoders show the same and the control states are ordered. -/
structure Below (d d' : Drive ℚ) : Prop where
  data : d.data = d'.data
  core : d.motor.core.Below d'.motor.core

theorem Below.step {d d' : Drive ℚ} (h : d.Below d') {e e' : Event ℚ} (he : e.RefLe e') :
    (d.step e).Below (d'.step e') := by
  cases he with
  | sample speed time => exact ⟨rfl, h.core⟩
  | @call c c' hc =>
    refine ⟨h.data, ?_⟩
    have hfresh : d.Fresh ↔ d'.Fresh := by
      unfold Fresh
      rw [h.data, show d.motor.prevTime = d'.motor.prevTime from h.core.prevTime]
    rw [step_call_core, step_call_core, h.data]
    by_cases hf : d'.Fresh
    · rw [if_pos hf, if_pos (hfresh.2 hf)]
      exact h.core.apply d'.data hc
    · rw [if_neg hf, if_neg (fun h' => hf (hfresh.1 h'))]
      exact h.core

theorem below_start {Kp Ki : ℚ} (hp : 0 ≤ Kp) (hi : 0 ≤ Ki) (ratedRPM : ℕ) (data : SpeedData ℚ) :
    (start Kp Ki ratedRPM data).Below (start Kp Ki ratedRPM data) := by
  have hpi := construct_picontrol Kp Ki ratedRPM data
  refine ⟨rfl, Core.below_refl ?_ ?_⟩
  · show 0 ≤ (construct Kp Ki ratedRPM data).core.picontrol.Kp
    rwa [hpi]
  · show 0 ≤ (construct Kp Ki ratedRPM data).core.picontrol.Ki
    rwa [hpi]

/-- **The controller is monotone in its reference**, after every event of the two runs. -/
theorem monotone_in_reference {Kp Ki : ℚ} (hp : 0 ≤ Kp) (hi : 0 ≤ Ki) (ratedRPM : ℕ)
    (data : SpeedData ℚ) {es es' : List (Event ℚ)} (h : List.Forall₂ Event.RefLe es es') (n : ℕ) :
    let m := (exec step (start Kp Ki ratedRPM data) (es.take n)).motor
    let m' := (exec step (start Kp Ki ratedRPM data) (es'.take n)).motor
    m.compVolt ≤ m'.compVolt ∧ m.picontrol.accError_t ≤ m'.picontrol.accError_t ∧
      m.motorEnable ≤ m'.motorEnable := by
  have hbelow := exec_rel (R := Below) (E := Event.RefLe)
    (fun _ _ _ _ hd he => hd.step he) (below_start hp hi ratedRPM data) (List.forall₂_take n h)
  exact ⟨hbelow.core.compVolt, hbelow.core.accError_t, hbelow.core.motorEnable⟩

theorem monotone_in_reference_applies :
    let es (r : ℚ) : List (Event ℚ) := [.sample 0 100000, .call (.run r), .call .stop]
    let m (r : ℚ) := (exec step (start (4 / 25) (1 / 100) 24 (0, 0)) ((es r).take 2)).motor
    (m (1 / 100)).compVolt ≤ (m 1).compVolt ∧
      (m (1 / 100)).picontrol.accError_t ≤ (m 1).picontrol.accError_t ∧
      (m (1 / 100)).motorEnable ≤ (m 1).motorEnable :=
  monotone_in_reference (by norm_num) (by norm_num) 24 (0, 0)
    (.cons (.sample 0 100000) (.cons (.call (.run (by norm_num))) (.cons (.call .stop) .nil))) 2

end Drive

end NucleoMotor
