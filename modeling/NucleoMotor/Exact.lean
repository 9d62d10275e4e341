import NucleoMotor.MotorControl

/-!
# The control law in exact arithmetic

On `ℚ` the sampled control law `Core.apply` is a step of an incremental PI regulator with ceiling
`100` for `run`, and a decrement by `3` or a cut to `0` for `stop`; the duty is `_compVolt / 100`
after `run` and `_compVolt` itself after `stop`, each saturated to `[0, 1]`.
-/

namespace NucleoMotor

open Saturation Regulator

/-- `PwmOut.write` saturates to the unit interval. -/
theorem PwmOut.write_rat (x : ℚ) : PwmOut.write x = unit x := by
  show (if x < 0 then 0 else if 1 < x then 1 else x) = unit x
  split_ifs with h0 h1
  · exact (unit_of_nonpos h0.le).symm
  · exact (unit_of_one_le h1.le).symm
  · exact (unit_of_mem (not_lt.1 h0) (not_lt.1 h1)).symm

namespace MotorControl

theorem adjustError_rat (e : ℚ) : adjustError e = shape (2 / 5) 5 e := by
  unfold adjustError shape
  simp only [lit_rat, neg_div]

theorem abs_adjustError_le (e : ℚ) : |adjustError e| ≤ 5 := by
  rw [adjustError_rat]
  exact abs_shape_le (by norm_num) e

theorem adjustError_mono : Monotone (adjustError : ℚ → ℚ) := fun e e' h => by
  rw [adjustError_rat, adjustError_rat]
  exact shape_mono (by norm_num) (by norm_num) h

/-- An error above the dead band's lower end is not saturated to a negative one. -/
theorem adjustError_nonneg {e : ℚ} (h : -(2 / 5) < e) : 0 ≤ adjustError e := by
  rw [adjustError_rat, shape]
  split_ifs with h1 h2 h3
  · norm_num
  · linarith
  · exact le_rfl
  · have hlo : 2 / 5 ≤ e := not_lt.1 fun hlt => h3 ⟨hlt, h⟩
    linarith

/-- `_speedVolt`, the speed in percent of 24 rpm. -/
def percent (speed : ℚ) : ℚ := speed * 100 / 24

theorem refError_rat (refVolt speed : ℚ) :
    refError refVolt speed = refVolt * 100 - percent speed := rfl

/-- The timestep the PI controller sees, in seconds, after the 32-bit narrowing. -/
def seconds (gap : ℤ) : ℚ := unsignedLong gap / 1000000

theorem seconds_nonneg (gap : ℤ) : 0 ≤ seconds gap := by unfold seconds; positivity

theorem seconds_le {gap : ℤ} (h : 0 ≤ gap) : seconds gap ≤ gap / 1000000 := by
  have hle : ((unsignedLong gap : ℤ) : ℚ) ≤ gap := by exact_mod_cast unsignedLong_le h
  rw [Int.cast_natCast] at hle
  unfold seconds
  gcongr

theorem seconds_of_lt {gap : ℤ} (h0 : 0 ≤ gap) (h : gap < 2 ^ 32) :
    seconds gap = gap / 1000000 := by
  have heq : ((unsignedLong gap : ℤ) : ℚ) = gap := congrArg _ (unsignedLong_of_lt h0 h)
  rw [Int.cast_natCast] at heq
  rw [seconds, heq]

namespace Core

/-- The regulator inside the two objects. -/
def reg (c : Core ℚ) : State ℚ := ⟨c.compVolt, c.picontrol.accError_t⟩

def gains (c : Core ℚ) : Gains ℚ := ⟨c.picontrol.Kp, c.picontrol.Ki, 100⟩

variable (c : Core ℚ) (data : SpeedData ℚ) (refVolt : ℚ) (k : Call ℚ)

@[simp] theorem reg_out : c.reg.out = c.compVolt := rfl

@[simp] theorem reg_acc : c.reg.acc = c.picontrol.accError_t := rfl

@[simp] theorem apply_gains : (c.apply data k).gains = c.gains := by cases k <;> rfl

/-- `run` on a fresh sample is a step of the regulator. -/
theorem apply_run_reg : (c.apply data (.run refVolt)).reg =
    track c.gains c.reg (adjustError (refError refVolt data.1)) (seconds (data.2 - c.prevTime)) := by
  ext
  · simp only [reg, apply, track, signal, gains, PIcontrol.compensateSignal_fst, seconds, lit_rat]
    -- the source cuts off above `100`, `min` from `100` on
    rw [min_def]
    split_ifs with h1 h2 h2
    · rfl
    · exact absurd h1.le h2
    · exact le_antisymm (not_lt.1 h1) h2
    · rfl
  · exact PIcontrol.compensateSignal_accError_t _ _ _

theorem apply_run_duty : (c.apply data (.run refVolt)).motorEnable =
    unit ((c.apply data (.run refVolt)).compVolt / 100) := PwmOut.write_rat _

theorem apply_stop_compVolt : (c.apply data .stop).compVolt =
    if 3 < percent data.1 then c.compVolt - 3 else 0 := rfl

@[simp] theorem apply_stop_picontrol : (c.apply data .stop).picontrol = c.picontrol := rfl

theorem apply_stop_duty : (c.apply data .stop).motorEnable =
    unit (c.apply data .stop).compVolt := PwmOut.write_rat _

end Core

/-- In exact arithmetic the pins change only where `_compVolt = 0`. -/
theorem steer_pins_rat (m : MotorControl ℚ) (refVolt : ℚ) :
    (m.steer refVolt).pins = if m.compVolt = 0 then
      (if 0 < refVolt then Direction.Clockwise.pins else Direction.C_Clockwise.pins)
    else m.pins := by
  simp [steer_pins]

/-! ### A new controller -/

section Construct

variable (Kp Ki : ℚ) (ratedRPM : ℕ) (data : SpeedData ℚ)

theorem construct_compVolt : (construct Kp Ki ratedRPM data).core.compVolt =
    if 0 < data.2 ∧ 3 < percent data.1 then -3 else 0 := by
  rw [construct_core]
  by_cases h : 0 < data.2
  · rw [if_pos h, Core.apply_stop_compVolt]
    simp [h, initial, core]
  · rw [if_neg h, if_neg (fun h' => h h'.1)]
    rfl

theorem construct_picontrol :
    (construct Kp Ki ratedRPM data).core.picontrol = PIcontrol.construct Kp Ki := by
  rw [construct_core]
  split_ifs <;> rfl

theorem construct_accError_t : (construct Kp Ki ratedRPM data).picontrol.accError_t = 0 :=
  congrArg PIcontrol.accError_t (construct_picontrol Kp Ki ratedRPM data)

theorem construct_gains : (construct Kp Ki ratedRPM data).core.gains = ⟨Kp, Ki, 100⟩ := by
  rw [Core.gains, construct_picontrol]
  rfl

theorem construct_motorEnable : (construct Kp Ki ratedRPM data).core.motorEnable = 0 := by
  rw [construct_core]
  split_ifs with h
  · rw [Core.apply_stop_duty, Core.apply_stop_compVolt]
    apply unit_of_nonpos
    split_ifs <;> simp [initial, core]
  · rfl

theorem construct_compVolt_nonpos : (construct Kp Ki ratedRPM data).core.compVolt ≤ 0 := by
  rw [construct_compVolt]
  split_ifs <;> norm_num

/-- A new controller's duty is its saturated output, like one that `run` has left. -/
theorem construct_duty : (construct Kp Ki ratedRPM data).motorEnable =
    unit ((construct Kp Ki ratedRPM data).compVolt / 100) := by
  have hout : (construct Kp Ki ratedRPM data).compVolt ≤ 0 :=
    construct_compVolt_nonpos Kp Ki ratedRPM data
  rw [unit_of_nonpos (by linarith)]
  exact construct_motorEnable Kp Ki ratedRPM data

end Construct

end MotorControl

end NucleoMotor
