import NucleoMotor.Drive

/-!
# The direction pins under forward references

`run` decides the pins anew only where `_compVolt == 0`, and then takes every reference that is
not positive for a counter-clockwise one, the reference `0` included.  A call `run(0)` at rest so
latches the wrong direction, and a later rise of `_compVolt`, for example from what the integrator
still holds, drives the motor backwards.

* `clockwise_of_no_zeroAtRest`: without such a call the motor is never driven backwards.
* `zero_reference_drives_backwards`: one such call, in a run that `main.cpp` can make.
-/

namespace NucleoMotor

open MotorControl Runs

namespace Drive

/-- The motor is driven only with the pins in the Clockwise setting. -/
def ForwardOnly (d : Drive ℚ) : Prop :=
  0 < d.motor.motorEnable → d.motor.motorDirection1 = 0 ∧ d.motor.motorDirection2 = 1

/-- A call `run(0)` while `_compVolt` is exactly `0`. -/
def ZeroAtRest (d : Drive ℚ) : Event ℚ → Prop
  | .call (.run refVolt) => d.motor.compVolt = 0 ∧ refVolt = 0
  | _ => False

instance (d : Drive ℚ) : ∀ e, Decidable (d.ZeroAtRest e)
  | .sample _ _ => inferInstanceAs (Decidable False)
  | .call (.run refVolt) => inferInstanceAs (Decidable (d.motor.compVolt = 0 ∧ refVolt = 0))
  | .call .stop => inferInstanceAs (Decidable False)

/-- An event with a nonnegative reference keeps the Clockwise setting, except for `run(0)` at
rest. -/
theorem step_pins_clockwise {d : Drive ℚ} {e : Event ℚ}
    (h : d.motor.pins = Direction.Clockwise.pins) (hf : d.Forward e) (hz : ¬ d.ZeroAtRest e) :
    (d.step e).motor.pins = Direction.Clockwise.pins := by
  match e with
  | .sample speed time => exact h
  | .call .stop => exact (stop_pins _ _).trans h
  | .call (.run refVolt) =>
    show (d.motor.run d.data refVolt).2.pins = _
    rw [run_pins, steer_pins_rat]
    split_ifs with h0 hpos
    · rfl
    · -- the reference is `0`: the branch that `ZeroAtRest` excludes
      exact absurd ⟨h0, le_antisymm (not_lt.1 hpos) hf.1⟩ hz
    · exact h

/-- **Without a call `run(0)` at rest the motor is never driven backwards**, from construction on
any encoder data, through any stops, samples and references in `[0, 1]`. -/
theorem clockwise_of_no_zeroAtRest (Kp Ki : ℚ) (ratedRPM : ℕ) (data : SpeedData ℚ)
    (es : List (Event ℚ)) (hes : AllSteps step Forward (start Kp Ki ratedRPM data) es)
    (hz : AllSteps step (fun d e => ¬ d.ZeroAtRest e) (start Kp Ki ratedRPM data) es) :
    Always step ForwardOnly (start Kp Ki ratedRPM data) es := by
  have hpins : Always step (fun d => d.motor.pins = Direction.Clockwise.pins)
      (start Kp Ki ratedRPM data) es :=
    (hes.and hz).always (construct_pins Kp Ki ratedRPM data)
      fun d e h hc => step_pins_clockwise h hc.1 hc.2
  intro n _
  have hn := hpins n
  exact ⟨congrArg Prod.fst hn, congrArg Prod.snd hn⟩

theorem clockwise_of_no_zeroAtRest_applies :
    Always step ForwardOnly (start (4 / 25) (1 / 100) 24 (0, 0))
      [.call (.run 1), .sample 0 100000, .call (.run 1), .call (.run 0), .call .stop] :=
  clockwise_of_no_zeroAtRest (4 / 25) (1 / 100) 24 (0, 0) _ (by decide +kernel)
    (by decide +kernel)

/-- A motor held still is started and stopped, which leaves the integrator at `1 / 2`, and then run
with reference `0`: the pins turn counter-clockwise and the duty becomes `1 / 20000`. -/
theorem zero_reference_drives_backwards :
    let es : List (Event ℚ) := [.sample 0 100000, .call (.run 1), .sample 0 200000, .call .stop,
      .sample 0 300000, .call (.run 0)]
    AllSteps step Forward (start (4 / 25) (1 / 100) 24 (0, 0)) es ∧
      ¬ Always step ForwardOnly (start (4 / 25) (1 / 100) 24 (0, 0)) es := by
  refine ⟨by decide +kernel, fun h => ?_⟩
  have hduty : 0 < (exec step (start (4 / 25 : ℚ) (1 / 100) 24 (0, 0)) [.sample 0 100000,
      .call (.run 1), .sample 0 200000, .call .stop, .sample 0 300000,
      .call (.run 0)]).motor.motorEnable := by decide +kernel
  exact absurd (h 6 hduty).1 (by decide +kernel)

end Drive

end NucleoMotor
