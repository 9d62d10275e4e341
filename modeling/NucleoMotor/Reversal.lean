import NucleoMotor.Output

/-!
# Reversing the motor

`run` decides the direction pins anew where `_compVolt == 0`, which says nothing of the duty
directly: the duty in force was written by an earlier call, and `_compVolt` gets to `0` in several
ways.  In every state reached from construction the duty is a saturation of `_compVolt` or of
`_compVolt / 100`, so that `_compVolt = 0` still means duty `0` (`Bounded.duty_eq_zero`).
-/

namespace NucleoMotor

open MotorControl Runs Saturation

theorem MotorControl.Core.Bounded.duty_eq_zero {c : Core ℚ} (h : c.Bounded)
    (h0 : c.compVolt ≤ 0) : c.motorEnable = 0 := by
  rcases h.duty with hd | hd <;> rw [hd]
  · exact unit_of_nonpos (by linarith)
  · exact unit_of_nonpos h0

namespace Drive

/-- A call that changes the direction pins is one of `run`; its first line changes them, while the
duty in force is `0`. -/
def ReversesUnpowered (d : Drive ℚ) : Event ℚ → Prop
  | .sample _ _ => True
  | .call c => (d.motor.call d.data c).pins ≠ d.motor.pins →
      ∃ refVolt, c = .run refVolt ∧ (d.motor.steer refVolt).pins = (d.motor.call d.data c).pins ∧
        (d.motor.steer refVolt).motorEnable = 0

theorem reversesUnpowered {d : Drive ℚ} (h : d.motor.core.Bounded) (e : Event ℚ) :
    d.ReversesUnpowered e := by
  match e with
  | .sample speed time => trivial
  | .call .stop => exact fun hne => absurd (stop_pins _ _) hne
  | .call (.run refVolt) =>
    intro hne
    have hpins : (d.motor.call d.data (.run refVolt)).pins = (d.motor.steer refVolt).pins :=
      run_pins _ _ _
    refine ⟨refVolt, rfl, hpins.symm, ?_⟩
    have hduty : (d.motor.steer refVolt).motorEnable = d.motor.motorEnable :=
      congrArg Core.motorEnable (core_steer d.motor refVolt)
    rw [hduty]
    rw [hpins, steer_pins_rat] at hne
    by_cases h0 : d.motor.compVolt = 0
    · exact h.duty_eq_zero h0.le
    · exact absurd (if_neg h0) hne

/-- **The motor is reversed only unpowered**, in every run from construction on: the constructor
sets the pins after a `stop` that leaves the duty `0`, and later calls that change them do so with
the duty `0` in force. -/
theorem reversal_unpowered (Kp Ki : ℚ) (ratedRPM : ℕ) (data : SpeedData ℚ) (es : List (Event ℚ)) :
    ((initial Kp Ki ratedRPM).stop data).motorEnable = 0 ∧
      AllSteps step ReversesUnpowered (start Kp Ki ratedRPM data) es := by
  constructor
  · -- the constructor's last line leaves the duty that `stop` wrote
    exact construct_motorEnable Kp Ki ratedRPM data
  · refine allSteps_of_invariant (P := fun d => d.motor.core.Bounded)
      (Core.bounded_construct Kp Ki ratedRPM data) ?_ (fun d e h => reversesUnpowered h e) es
    exact fun d e h => step_core_ind d e h fun c _ _ => h.apply d.data c

end Drive

end NucleoMotor
