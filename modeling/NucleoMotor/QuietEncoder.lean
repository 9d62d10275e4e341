import NucleoMotor.Rig

/-!
# Stopping the motor after the encoder

`EncodedMotor::Stop` detaches the encoder's interrupts, so no sample follows the last one, while
`MotorControl::stop` acts on fresh samples only.  Of any number of calls of `stop` that follow at
most the first one acts (`stop_after_Stop`), on the sample that no call has used; where there is
none the motor keeps the duty it has, for ever.
-/

namespace NucleoMotor

open EncodedMotor MotorControl Runs Saturation

namespace Rig

/-- `EncodedMotor::Stop`. -/
def encoderStop {α : Type} (r : Rig α) : Rig α := { r with encoder := r.encoder.Stop }

/-- What happens after it: signals of the hardware, and calls of `MotorControl::stop`. -/
inductive LateEvent
  | signal (s : Signal)
  | stop
  deriving DecidableEq, Repr

section Late

variable {α : Type} [Arith α]

def late (r : Rig α) : LateEvent → Rig α
  | .signal s => { r with encoder := r.encoder.signal s }
  | .stop => r.step (.call .stop)

theorem wired_exec (pulsePerRotation : ℕ) (samplingRate : α) (encodeType : EncodeType)
    (before : List Interrupt) (Kp Ki : α) (ratedRPM : ℕ) (es : List (RigEvent α)) :
    (exec step (start pulsePerRotation samplingRate encodeType before Kp Ki
      ratedRPM) es).encoder.Wired := by
  refine exec_invariant (P := fun r : Rig α => r.encoder.Wired) ?_ (fun r e h => ?_) es
  · exact exec_invariant (P := Wired) (wired_construct _ _ _) (fun e i h => h.interrupt i) before
  · rcases e with i | c
    · exact h.interrupt i
    · exact h

/-- The encoder is deaf: no signal changes it. -/
def Deaf (r : Rig α) : Prop := ∀ s, r.encoder.signal s = r.encoder

theorem Deaf.late_signal {r : Rig α} (h : r.Deaf) (s : Signal) : r.late (.signal s) = r := by
  rw [late, h s]

theorem core_stop (r : Rig α) : (r.late .stop).motor.core =
    if r.drive.Fresh then r.motor.core.apply r.encoder.getSpeed .stop else r.motor.core :=
  Drive.step_call_core r.drive .stop

/-- After one call of `stop` nothing is fresh any more. -/
theorem not_fresh_stop (r : Rig α) : ¬ (r.late .stop).drive.Fresh := by
  have htime := congrArg Core.prevTime r.core_stop
  intro hf
  have hlt : (r.late .stop).motor.core.prevTime < r.encoder.getSpeed.2 := hf
  rw [htime] at hlt
  split_ifs at hlt with h
  · rw [Core.apply_prevTime] at hlt
    exact lt_irrefl _ hlt
  · exact h hlt

/-- With a deaf encoder and nothing fresh, the control state stays as it is. -/
theorem late_core {r : Rig α} (hd : r.Deaf) (hf : ¬ r.drive.Fresh) (ls : List LateEvent) :
    (exec late r ls).motor.core = r.motor.core := by
  refine (exec_invariant (P := fun q : Rig α => q.encoder = r.encoder ∧
    q.motor.core = r.motor.core) ⟨rfl, rfl⟩ (fun q l h => ?_) ls).2
  have hdeaf : q.Deaf := by
    unfold Deaf
    rw [h.1]
    exact hd
  cases l with
  | signal s => rwa [hdeaf.late_signal]
  | stop =>
    have hfresh : ¬ q.drive.Fresh := by
      show ¬ q.motor.core.prevTime < q.encoder.getSpeed.2
      rw [h.1, h.2]
      exact hf
    refine ⟨h.1, ?_⟩
    rw [core_stop, if_neg hfresh]
    exact h.2

/-- Of all calls of `stop` the first is the only one that counts. -/
theorem late_core_of_mem {r : Rig α} (hd : r.Deaf) {ls : List LateEvent}
    (h : LateEvent.stop ∈ ls) :
    (exec late r ls).motor.core = (r.late .stop).motor.core := by
  induction ls with
  | nil => cases h
  | cons l ls ih =>
    rw [exec_cons]
    cases l with
    | signal s =>
      rw [hd.late_signal]
      exact ih (by simpa using h)
    | stop => exact late_core (r := r.late .stop) hd r.not_fresh_stop ls

end Late

/-- When one call of `stop` takes the power off. -/
theorem duty_stop_iff (r : Rig ℚ) : (r.late .stop).motor.motorEnable = 0 ↔
    r.drive.Fresh ∧ (percent r.encoder.speed ≤ 3 ∨ r.motor.compVolt ≤ 3) ∨
      ¬ r.drive.Fresh ∧ r.motor.motorEnable = 0 := by
  have hduty : (r.late .stop).motor.motorEnable = _ := congrArg Core.motorEnable r.core_stop
  rw [hduty]
  by_cases hf : r.drive.Fresh
  · rw [if_pos hf, Core.apply_stop_duty, Core.apply_stop_compVolt, unit_eq_zero_iff]
    have hspeed : r.encoder.getSpeed.1 = r.encoder.speed := rfl
    have hout : r.motor.core.compVolt = r.motor.compVolt := rfl
    rw [hspeed, hout]
    simp only [hf, true_and, not_true_eq_false, false_and, or_false]
    split_ifs with h3
    · rw [sub_nonpos]
      exact ⟨.inr, fun h => h.resolve_left (not_le.2 h3)⟩
    · exact iff_of_true le_rfl (.inl (not_lt.1 h3))
  · rw [if_neg hf]
    have hout : r.motor.core.motorEnable = r.motor.motorEnable := rfl
    rw [hout]
    simp only [hf, false_and, not_false_eq_true, true_and, false_or]

/-- **After `EncodedMotor::Stop` only the first call of `MotorControl::stop` counts**: in every
state reached from construction, however many follow and whatever the pins and the ticker of the
encoder do meanwhile, the duty is the one after the first call.  It is `0` exactly when that call
finds a fresh sample, with a speed of at most 3 % or `_compVolt` at most `3`, or finds none and
the duty is `0` already. -/
theorem stop_after_Stop (pulsePerRotation : ℕ) (samplingRate : ℚ) (encodeType : EncodeType)
    (before : List Interrupt) (Kp Ki : ℚ) (ratedRPM : ℕ) (es : List (RigEvent ℚ))
    (ls : List LateEvent) (hstop : LateEvent.stop ∈ ls) :
    let r := exec step (start pulsePerRotation samplingRate encodeType before Kp Ki ratedRPM) es
    (exec late r.encoderStop ls).motor.motorEnable =
        (r.encoderStop.late .stop).motor.motorEnable ∧
      ((exec late r.encoderStop ls).motor.motorEnable = 0 ↔
        r.drive.Fresh ∧ (percent r.encoder.speed ≤ 3 ∨ r.motor.compVolt ≤ 3) ∨
          ¬ r.drive.Fresh ∧ r.motor.motorEnable = 0) := by
  intro r
  have hwired : r.encoder.Wired :=
    wired_exec pulsePerRotation samplingRate encodeType before Kp Ki ratedRPM es
  have hdeaf : r.encoderStop.Deaf := fun s => hwired.signal_Stop s
  have hduty : (exec late r.encoderStop ls).motor.motorEnable =
      (r.encoderStop.late .stop).motor.motorEnable :=
    congrArg Core.motorEnable (late_core_of_mem hdeaf hstop)
  refine ⟨hduty, ?_⟩
  rw [hduty]
  exact r.encoderStop.duty_stop_iff

/-- Here the sample before `Stop` is unread and shows no motion. -/
theorem stop_after_Stop_applies :
    let r : Rig ℚ := exec step (start 7392 10 .X4 [] (4 / 25) (1 / 100) 24)
      [.interrupt (.saveData 100000), .call (.run 1), .interrupt (.saveData 200000)]
    0 < r.motor.motorEnable ∧
      (exec late r.encoderStop [.signal (.edge .ARise), .stop, .stop]).motor.motorEnable = 0 :=
  ⟨by decide +kernel,
    (stop_after_Stop 7392 10 .X4 [] (4 / 25) (1 / 100) 24
      [.interrupt (.saveData 100000), .call (.run 1), .interrupt (.saveData 200000)]
      [.signal (.edge .ARise), .stop, .stop] (by decide)).2.2 (by decide +kernel)⟩

/-- A motor that runs on its last sample when the encoder is stopped keeps its duty through any
number of calls of `stop`. -/
theorem no_stop_bound :
    ¬ ∃ N : ℕ, ∀ es : List (RigEvent ℚ),
      AllSteps step Forward (start 7392 10 .X4 [] (4 / 25) (1 / 100) 24) es →
        (exec late (exec step (start (7392 : ℕ) (10 : ℚ) .X4 [] (4 / 25) (1 / 100) 24)
          es).encoderStop (List.replicate N .stop)).motor.motorEnable = 0 := by
  rintro ⟨N, h⟩
  let es : List (RigEvent ℚ) := [.interrupt (.saveData 100000), .call (.run 1)]
  let r : Rig ℚ := exec step (start 7392 10 .X4 [] (4 / 25) (1 / 100) 24) es
  have hwired : r.encoder.Wired := wired_exec 7392 10 .X4 [] (4 / 25) (1 / 100) 24 es
  have hfresh : ¬ r.encoderStop.drive.Fresh := by decide +kernel
  have hcore := late_core (r := r.encoderStop) (fun s => hwired.signal_Stop s) hfresh
    (List.replicate N .stop)
  have hduty : r.motor.motorEnable = 0 :=
    (congrArg Core.motorEnable hcore).symm.trans (h es (by decide +kernel))
  exact absurd hduty (by decide +kernel)

end Rig

end NucleoMotor
