import NucleoMotor.Drive

/-!
# Runs on fresh samples

A `Beat` is a new encoder sample followed by one call of `run`, given by the reference, the
measured speed and the time since the last sample that was used.  On beats the controller is the
plain PI regulator (`beat_reg`, and `after_reg` for a whole sequence).  `exec_events`: a run of
beats is a run of the main loop in which every call of `run` finds a fresh sample.
-/

namespace NucleoMotor

open MotorControl Runs Saturation Regulator

/-- A sample `gap` microseconds after the last one used, and a call `run(refVolt)` on it. -/
structure Beat where
  refVolt : ℚ
  speed : ℚ
  gap : ℕ
  gap_pos : 0 < gap

namespace Beat

/-- `_adjerrorVolt` of the beat. -/
def error (b : Beat) : ℚ := adjustError (refError b.refVolt b.speed)

/-- The events of the beats `bs` after time `t`. -/
def events : ℤ → List Beat → List (Event ℚ)
  | _, [] => []
  | t, b :: bs => .sample b.speed (t + b.gap) :: .call (.run b.refVolt) :: events (t + b.gap) bs

end Beat

namespace MotorControl

def beat (m : MotorControl ℚ) (b : Beat) : MotorControl ℚ :=
  (m.run (b.speed, m.prevTime + b.gap) b.refVolt).2

/-- The output and the duty after each beat. -/
def response (m : MotorControl ℚ) : List Beat → List (ℚ × ℚ)
  | [] => []
  | b :: bs => ((m.beat b).compVolt, (m.beat b).motorEnable) :: response (m.beat b) bs

variable (m : MotorControl ℚ) (b : Beat)

theorem beat_core :
    (m.beat b).core = m.core.apply (b.speed, m.prevTime + b.gap) (.run b.refVolt) :=
  core_call_fresh (c := .run b.refVolt) (by have := b.gap_pos; show m.prevTime < _; simp; omega)

@[simp] theorem beat_prevTime : (m.beat b).prevTime = m.prevTime + b.gap := by
  have h := congrArg Core.prevTime (m.beat_core b)
  rwa [Core.apply_prevTime] at h

@[simp] theorem beat_gains : (m.beat b).core.gains = m.core.gains := by
  rw [beat_core, Core.apply_gains]

/-- A beat is a step of the PI regulator. -/
theorem beat_reg :
    (m.beat b).core.reg = track m.core.gains m.core.reg b.error (seconds b.gap) := by
  rw [beat_core, Core.apply_run_reg, show m.core.prevTime = m.prevTime from rfl]
  simp only [add_sub_cancel_left]
  rfl

theorem beat_motorEnable : (m.beat b).motorEnable = unit ((m.beat b).compVolt / 100) := by
  have h := Core.apply_run_duty m.core (b.speed, m.prevTime + b.gap) b.refVolt
  rwa [← beat_core] at h

theorem exec_beat_gains (bs : List Beat) : (exec beat m bs).core.gains = m.core.gains :=
  exec_invariant (P := fun m' : MotorControl ℚ => m'.core.gains = m.core.gains) rfl
    (fun m' b h => (m'.beat_gains b).trans h) bs

/-! ### Sequences of beats -/

/-- The controller after the first `n` beats of a sequence. -/
def after (m : MotorControl ℚ) (b : ℕ → Beat) (n : ℕ) : MotorControl ℚ :=
  exec beat m ((List.range n).map b)

theorem after_succ (m : MotorControl ℚ) (b : ℕ → Beat) (n : ℕ) :
    m.after b (n + 1) = (m.after b n).beat (b n) := by
  simp [after, List.range_succ]

/-- Along a sequence of beats the controller is the regulator that follows their errors. -/
theorem after_reg (m : MotorControl ℚ) (b : ℕ → Beat) (n : ℕ) : (m.after b n).core.reg =
    follow m.core.gains m.core.reg (fun i => (b i).error) (fun i => seconds (b i).gap) n := by
  induction n with
  | zero => rfl
  | succ n ih => rw [after_succ, beat_reg, ih, after, exec_beat_gains, follow]

section Construct

variable (Kp Ki : ℚ) (ratedRPM : ℕ) (data : SpeedData ℚ) (b : ℕ → Beat) (n : ℕ)

/-- The output of a new controller along a sequence of beats. -/
theorem construct_after_compVolt : ((construct Kp Ki ratedRPM data).after b n).compVolt =
    (follow ⟨Kp, Ki, 100⟩ ⟨(construct Kp Ki ratedRPM data).compVolt, 0⟩
      (fun i => (b i).error) (fun i => seconds (b i).gap) n).out := by
  have hstart : (construct Kp Ki ratedRPM data).core.reg =
      ⟨(construct Kp Ki ratedRPM data).compVolt, 0⟩ :=
    State.ext rfl (construct_accError_t Kp Ki ratedRPM data)
  have hreg := after_reg (construct Kp Ki ratedRPM data) b n
  rw [construct_gains, hstart] at hreg
  exact congrArg State.out hreg

/-- Its duty is the saturated output. -/
theorem construct_after_duty : ((construct Kp Ki ratedRPM data).after b n).motorEnable =
    unit (((construct Kp Ki ratedRPM data).after b n).compVolt / 100) := by
  cases n with
  | zero => exact construct_duty Kp Ki ratedRPM data
  | succ n =>
    rw [after_succ]
    exact beat_motorEnable _ _

end Construct

end MotorControl

namespace Drive

theorem exec_events {d : Drive ℚ} (h : d.Settled) (bs : List Beat) :
    (exec step d (Beat.events d.data.2 bs)).motor = exec beat d.motor bs := by
  induction bs generalizing d with
  | nil => rfl
  | cons b bs ih =>
    rw [Beat.events, exec_cons, exec_cons, exec_cons]
    -- the sample is new because the last one has been used
    have hmotor : ((d.step (.sample b.speed (d.data.2 + b.gap))).step
        (.call (.run b.refVolt))).motor = d.motor.beat b := by
      rw [beat, show d.motor.prevTime = d.data.2 from h]
      rfl
    rw [← hmotor]
    refine ih ?_
    show ((d.step _).step _).motor.prevTime = d.data.2 + b.gap
    rw [hmotor, beat_prevTime, show d.motor.prevTime = d.data.2 from h]

/-- The events of beats have increasing timestamps. -/
theorem clocked_events (d : Drive ℚ) (bs : List Beat) :
    AllSteps step Clocked d (Beat.events d.data.2 bs) := by
  induction bs generalizing d with
  | nil => trivial
  | cons b bs ih =>
    refine ⟨?_, trivial, ih ((d.step (.sample b.speed (d.data.2 + b.gap))).step
      (.call (.run b.refVolt)))⟩
    have := b.gap_pos
    show d.data.2 < d.data.2 + (b.gap : ℤ)
    omega

end Drive

end NucleoMotor
