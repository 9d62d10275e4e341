import NucleoMotor.Drive
import NucleoMotor.EncodedMotor

/-!
# The encoder and the controller together

A `Rig` is an `EncodedMotor` and the `MotorControl` that reads it.  Its runs interleave the
interrupts of the encoder with the calls of the main loop; `Rig.start` is the state when the
controller has been constructed, after any interrupts that came before.

To the controller a rig is a `Drive` whose samples are what `saveData` stores (`drive_exec`), with
increasing timestamps when the timer's readings increase (`clocked_events`), so what holds of all
runs of a `Drive` holds of rigs.
-/

namespace NucleoMotor

open EncodedMotor MotorControl Runs

/-- An interrupt of the encoder, or a call of the main loop. -/
inductive RigEvent (α : Type)
  | interrupt (i : Interrupt)
  | call (c : Call α)
  deriving DecidableEq, Repr

structure Rig (α : Type) where
  encoder : EncodedMotor α
  motor : MotorControl α

namespace Rig

variable {α : Type} [Arith α]

def step (r : Rig α) : RigEvent α → Rig α
  | .interrupt i => { r with encoder := r.encoder.interrupt i }
  | .call c => { r with motor := r.motor.call r.encoder.getSpeed c }

/-- A new controller on a new encoder that has had the interrupts `before`. -/
def start (pulsePerRotation : ℕ) (samplingRate : α) (encodeType : EncodeType)
    (before : List Interrupt) (Kp Ki : α) (ratedRPM : ℕ) : Rig α :=
  let encoder := exec interrupt (EncodedMotor.construct pulsePerRotation samplingRate encodeType)
    before
  ⟨encoder, MotorControl.construct Kp Ki ratedRPM encoder.getSpeed⟩

/-- The timer's readings increase. -/
def Clocked (r : Rig α) : RigEvent α → Prop
  | .interrupt (.saveData currentTime) => r.encoder.previousSaveTime < currentTime
  | _ => True

instance (r : Rig α) : ∀ e, Decidable (r.Clocked e)
  | .interrupt (.saveData currentTime) =>
    inferInstanceAs (Decidable (r.encoder.previousSaveTime < currentTime))
  | .interrupt .incrementPulse => inferInstanceAs (Decidable True)
  | .call _ => inferInstanceAs (Decidable True)

/-- The timer's readings are `window` apart. -/
def Spaced (window : ℕ) (r : Rig α) : RigEvent α → Prop
  | .interrupt i => r.encoder.Spaced window i
  | .call _ => True

instance (window : ℕ) (r : Rig α) : ∀ e, Decidable (r.Spaced window e)
  | .interrupt i => inferInstanceAs (Decidable (r.encoder.Spaced window i))
  | .call _ => inferInstanceAs (Decidable True)

/-- What the controller sees of the rig. -/
def drive (r : Rig α) : Drive α := ⟨r.encoder.getSpeed, r.motor⟩

/-- What the controller sees of an event: the pulses only count in the next sample. -/
def observe (r : Rig α) : RigEvent α → List (Event α)
  | .interrupt .incrementPulse => []
  | .interrupt (.saveData currentTime) =>
    let data := (r.encoder.saveData currentTime).getSpeed
    [.sample data.1 data.2]
  | .call c => [.call c]

/-- The run that the controller sees. -/
def events (r : Rig α) (es : List (RigEvent α)) : List (Event α) := image step observe r es

theorem drive_step (r : Rig α) (e : RigEvent α) :
    (r.step e).drive = exec Drive.step r.drive (r.observe e) := by
  rcases e with (_ | currentTime) | c <;> rfl

/-- **The controller on its encoder runs as a `Drive`.** -/
theorem drive_exec (r : Rig α) (es : List (RigEvent α)) :
    (exec step r es).drive = exec Drive.step r.drive (r.events es) :=
  exec_image (Q := fun _ => True) (allSteps_true r es) trivial (fun _ _ _ _ => trivial)
    fun t e _ _ => drive_step t e

/-- The timestamps are the timer's readings, counted from `_previousReadTime`. -/
theorem saveData_time_lt {e : EncodedMotor α} {currentTime : ℕ}
    (h : e.previousSaveTime < currentTime) :
    e.getSpeed.2 < (e.saveData currentTime).getSpeed.2 := by
  show (e.previousSaveTime : ℤ) - e.previousReadTime < (currentTime : ℤ) - e.previousReadTime
  omega

theorem clocked_events {r : Rig α} {es : List (RigEvent α)} (h : AllSteps step Clocked r es) :
    AllSteps Drive.step Drive.Clocked r.drive (r.events es) := by
  refine allSteps_image drive_step (fun r e he => ?_) h
  rcases e with (_ | currentTime) | c
  · trivial
  · exact ⟨saveData_time_lt he, trivial⟩
  · exact ⟨trivial, trivial⟩

/-- The timer's readings increase and references lie in `[0, 1]`. -/
def Forward (r : Rig ℚ) : RigEvent ℚ → Prop
  | .call (.run refVolt) => 0 ≤ refVolt ∧ refVolt ≤ 1
  | e => r.Clocked e

instance (r : Rig ℚ) : ∀ e, Decidable (r.Forward e)
  | .interrupt i => inferInstanceAs (Decidable (r.Clocked (.interrupt i)))
  | .call (.run refVolt) => inferInstanceAs (Decidable (0 ≤ refVolt ∧ refVolt ≤ 1))
  | .call .stop => inferInstanceAs (Decidable (r.Clocked (.call .stop)))

/-- The timestamp of a new controller's encoder is not negative, so its constructor settles. -/
theorem settled_start (pulsePerRotation : ℕ) (samplingRate : α) (encodeType : EncodeType)
    (before : List Interrupt) (Kp Ki : α) (ratedRPM : ℕ) :
    (start pulsePerRotation samplingRate encodeType before Kp Ki ratedRPM).drive.Settled := by
  have hread : (start pulsePerRotation samplingRate encodeType before Kp Ki
      ratedRPM).encoder.previousReadTime = 0 := by
    refine exec_invariant (P := fun e : EncodedMotor α => e.previousReadTime = 0) rfl
      (fun e i h => ?_) before
    cases i <;> exact h
  refine Drive.settled_start Kp Ki ratedRPM ?_
  rw [getSpeed, hread]
  simp

end Rig

end NucleoMotor
