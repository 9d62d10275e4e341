import NucleoMotor.Exact
import NucleoMotor.Lib.Runs

/-!
# The motor controller in its main loop

A `Drive` is a `MotorControl` together with what its encoder shows.  Its runs interleave new
encoder samples with calls of `run` and `stop`, as the main loop makes them: `Drive.start` is the
state after construction, `Drive.step` takes one event.

The conditions on the events of a run are `Forward` (speeds `≥ 0`, increasing timestamps and
references in `[0, 1]`, the range of the `AnalogIn` that feeds `run`) and `Clocked` (increasing
timestamps only).
-/

namespace NucleoMotor

open MotorControl Runs Saturation Regulator

/-- A new encoder sample, or a call of the main loop. -/
inductive Event (α : Type)
  | sample (speed : α) (time : ℤ)
  | call (c : Call α)
  deriving DecidableEq, Repr

/-- The controller and what `getSpeed` returns. -/
structure Drive (α : Type) where
  data : SpeedData α
  motor : MotorControl α

namespace Drive

variable {α : Type} [Arith α]

def step (d : Drive α) : Event α → Drive α
  | .sample speed time => { d with data := (speed, time) }
  | .call c => { d with motor := d.motor.call d.data c }

/-- A new controller on an encoder that shows `data`. -/
def start (Kp Ki : α) (ratedRPM : ℕ) (data : SpeedData α) : Drive α :=
  ⟨data, construct Kp Ki ratedRPM data⟩

/-- The encoder shows a sample that no call has used. -/
def Fresh (d : Drive α) : Prop := d.motor.prevTime < d.data.2

instance (d : Drive α) : Decidable d.Fresh := inferInstanceAs (Decidable (_ < _))

/-- Timestamps increase. -/
def Clocked (d : Drive α) : Event α → Prop
  | .sample _ time => d.data.2 < time
  | .call _ => True

theorem step_call_core_fresh {d : Drive α} (h : d.Fresh) (c : Call α) :
    (d.step (.call c)).motor.core = d.motor.core.apply d.data c := core_call_fresh h

theorem step_call_core_stale {d : Drive α} (h : ¬ d.Fresh) (c : Call α) :
    (d.step (.call c)).motor.core = d.motor.core := core_call_stale (not_lt.1 h)

/-- What an event does to the control state. -/
theorem step_call_core (d : Drive α) (c : Call α) : (d.step (.call c)).motor.core =
    if d.Fresh then d.motor.core.apply d.data c else d.motor.core := by
  split_ifs with h
  · exact step_call_core_fresh h c
  · exact step_call_core_stale h c

/-- An invariant of the control state is kept by a step once the control law keeps it. -/
theorem step_core_ind {P : Core α → Prop} (d : Drive α) (e : Event α) (h : P d.motor.core)
    (happly : ∀ c, e = .call c → d.Fresh → P (d.motor.core.apply d.data c)) :
    P (d.step e).motor.core := by
  cases e with
  | sample speed time => exact h
  | call c =>
    rw [step_call_core]
    split_ifs with hf
    · exact happly c rfl hf
    · exact h

/-- In a run with increasing timestamps `prevTime` never passes the encoder's. -/
theorem prevTime_step {d : Drive α} (h : d.motor.prevTime ≤ d.data.2) {e : Event α}
    (he : d.Clocked e) : (d.step e).motor.prevTime ≤ (d.step e).data.2 := by
  cases e with
  | sample speed time => exact h.trans he.le
  | call c =>
    show (d.step (.call c)).motor.core.prevTime ≤ d.data.2
    rw [step_call_core]
    split_ifs
    · rw [Core.apply_prevTime]
    · exact h

/-- The last sample has been used. -/
def Settled (d : Drive α) : Prop := d.motor.prevTime = d.data.2

theorem settled_start (Kp Ki : α) (ratedRPM : ℕ) {data : SpeedData α} (h : 0 ≤ data.2) :
    (start Kp Ki ratedRPM data).Settled := construct_prevTime Kp Ki ratedRPM h

/-- The gains never change. -/
theorem exec_gains (d : Drive ℚ) (es : List (Event ℚ)) :
    (exec step d es).motor.core.gains = d.motor.core.gains := by
  refine exec_invariant (P := fun d' : Drive ℚ => d'.motor.core.gains = d.motor.core.gains) rfl
    (fun d' e h => ?_) es
  exact step_core_ind (P := fun c => c.gains = d.motor.core.gains) d' e h
    fun c _ _ => (Core.apply_gains _ _ _).trans h

theorem start_gains (Kp Ki : ℚ) (ratedRPM : ℕ) (data : SpeedData ℚ) :
    (start Kp Ki ratedRPM data).motor.core.gains = ⟨Kp, Ki, 100⟩ :=
  construct_gains Kp Ki ratedRPM data

/-- Speeds are nonnegative, timestamps increase and references lie in `[0, 1]`. -/
def Forward (d : Drive ℚ) : Event ℚ → Prop
  | .sample speed time => 0 ≤ speed ∧ d.data.2 < time
  | .call (.run refVolt) => 0 ≤ refVolt ∧ refVolt ≤ 1
  | .call .stop => True

instance (d : Drive ℚ) : ∀ e, Decidable (d.Forward e)
  | .sample speed time => inferInstanceAs (Decidable (0 ≤ speed ∧ d.data.2 < time))
  | .call (.run refVolt) => inferInstanceAs (Decidable (0 ≤ refVolt ∧ refVolt ≤ 1))
  | .call .stop => inferInstanceAs (Decidable True)

end Drive

end NucleoMotor
