import NucleoMotor.Drive

/-!
# The time that the controller accounts for

`run` passes the time since `prevTime` to the PI controller, `stop` lets it go, and both move
`prevTime` to the sample they read.  A `TimeLedger` keeps the two sums beside a run, read off what
the calls leave behind: `compensateSignal` keeps the timestep it was given, in seconds.  The
comparison of the timestamps has 64 bits, the timestep passed on has 32, so the sums make up
`prevTime` exactly as long as no call of `run` acts after `2 ^ 32` microseconds or more
(`time_conserved_iff`).
-/

namespace NucleoMotor

open MotorControl Runs

namespace Drive

/-- The timestep that an event passed to `compensateSignal`, in microseconds. -/
def passed (d : Drive ℚ) : Event ℚ → ℚ
  | .call (.run refVolt) =>
    if d.Fresh then (d.step (.call (.run refVolt))).motor.picontrol.timestep * 1000000 else 0
  | _ => 0

/-- The interval `_thisTime - _prevTime` that an acting call of `stop` consumes. -/
def consumed (d : Drive ℚ) : Event ℚ → ℚ
  | .call .stop =>
    if d.Fresh then (((d.step (.call .stop)).motor.thisTime - d.motor.prevTime : ℤ) : ℚ) else 0
  | _ => 0

/-- `run` passes on the time since `prevTime`, cut off to 32 bits. -/
theorem passed_run (d : Drive ℚ) (refVolt : ℚ) : d.passed (.call (.run refVolt)) =
    if d.Fresh then (unsignedLong (d.data.2 - d.motor.prevTime) : ℚ) else 0 := by
  rw [passed]
  split_ifs with hf
  · have hcore := congrArg (fun c => c.picontrol.timestep) (step_call_core_fresh hf (.run refVolt))
    have htimestep : (d.step (.call (.run refVolt))).motor.picontrol.timestep =
        seconds (d.data.2 - d.motor.prevTime) := hcore
    rw [htimestep, seconds]
    exact div_mul_cancel₀ _ (by norm_num)
  · rfl

theorem consumed_stop (d : Drive ℚ) : d.consumed (.call .stop) =
    if d.Fresh then ((d.data.2 - d.motor.prevTime : ℤ) : ℚ) else 0 := by
  have htime : (d.step (.call .stop)).motor.thisTime = d.data.2 := by
    show (d.motor.stop d.data).thisTime = d.data.2
    rw [stop_eq]
    split_ifs <;> rfl
  rw [consumed, htime]

end Drive

/-- A run with the time passed to the PI controller and the time consumed by `stop`. -/
structure TimeLedger where
  drive : Drive ℚ
  integrated : ℚ
  stopped : ℚ

namespace TimeLedger

def step (l : TimeLedger) (e : Event ℚ) : TimeLedger :=
  ⟨l.drive.step e, l.integrated + l.drive.passed e, l.stopped + l.drive.consumed e⟩

/-- The constructor's `stop` consumes the time up to the sample it finds. -/
def start (Kp Ki : ℚ) (ratedRPM : ℕ) (data : SpeedData ℚ) : TimeLedger :=
  ⟨Drive.start Kp Ki ratedRPM data, 0,
    Drive.consumed ⟨data, initial Kp Ki ratedRPM⟩ (.call .stop)⟩

/-- The integrated and the consumed time make up `prevTime`. -/
def Balanced (l : TimeLedger) : Prop := l.integrated + l.stopped = l.drive.motor.prevTime

/-- A call of `run` that acts does so less than `2 ^ 32` microseconds after `prevTime`. -/
def ShortGap (l : TimeLedger) : Event ℚ → Prop
  | .call (.run _) => l.drive.Fresh → l.drive.data.2 - l.drive.motor.prevTime < 2 ^ 32
  | _ => True

theorem balanced_start (Kp Ki : ℚ) (ratedRPM : ℕ) (data : SpeedData ℚ) :
    (start Kp Ki ratedRPM data).Balanced := by
  have hprev : (Drive.start Kp Ki ratedRPM data).motor.prevTime = _ :=
    congrArg Core.prevTime (construct_core Kp Ki ratedRPM data)
  let d : Drive ℚ := ⟨data, initial Kp Ki ratedRPM⟩
  rw [Balanced, start, Drive.consumed_stop, hprev, zero_add]
  by_cases h : 0 < data.2
  · rw [if_pos h, if_pos (show d.Fresh from h), Core.apply_prevTime]
    show ((data.2 - 0 : ℤ) : ℚ) = data.2
    rw [sub_zero]
  · rw [if_neg h, if_neg (show ¬ d.Fresh from h)]
    exact Int.cast_zero.symm

/-- An acting call moves `prevTime` to its sample. -/
theorem prevTime_call (d : Drive ℚ) (c : Call ℚ) : (d.step (.call c)).motor.prevTime =
    if d.Fresh then d.data.2 else d.motor.prevTime := by
  refine (congrArg Core.prevTime (Drive.step_call_core d c)).trans ?_
  split_ifs
  · exact Core.apply_prevTime _ _ _
  · rfl

/-- One event keeps the balance exactly when it is no `run` after too long a gap. -/
theorem balanced_step_iff {l : TimeLedger} (h : l.Balanced) (e : Event ℚ) :
    (l.step e).Balanced ↔ l.ShortGap e := by
  unfold Balanced at h
  match e with
  | .sample speed time =>
    refine iff_of_true ?_ trivial
    show l.integrated + 0 + (l.stopped + 0) = l.drive.motor.prevTime
    rw [add_zero, add_zero, h]
  | .call (.run refVolt) =>
    show l.integrated + l.drive.passed _ + (l.stopped + 0) =
      ((l.drive.step (.call (.run refVolt))).motor.prevTime : ℚ) ↔ (l.drive.Fresh → _)
    rw [prevTime_call, Drive.passed_run, add_zero, add_right_comm, h]
    split_ifs with hf
    · have hpos : 0 ≤ l.drive.data.2 - l.drive.motor.prevTime := sub_nonneg.2 (le_of_lt hf)
      rw [forall_prop_of_true hf, ← unsignedLong_eq_iff hpos, eq_sub_iff_add_eq', ← Int.cast_natCast]
      exact_mod_cast Iff.rfl
    · exact iff_of_true (add_zero _) fun hf' => absurd hf' hf
  | .call .stop =>
    refine iff_of_true ?_ trivial
    show l.integrated + 0 + (l.stopped + l.drive.consumed _) =
      ((l.drive.step (.call .stop)).motor.prevTime : ℚ)
    rw [prevTime_call, Drive.consumed_stop, add_zero, ← add_assoc, h]
    split_ifs
    · rw [Int.cast_sub, add_sub_cancel]
    · rw [add_zero]

/-- **Exactly when integrated time is real time**, for every interleaving of samples and calls
from construction on. -/
theorem time_conserved_iff (Kp Ki : ℚ) (ratedRPM : ℕ) (data : SpeedData ℚ) (es : List (Event ℚ)) :
    Always step Balanced (start Kp Ki ratedRPM data) es ↔
      AllSteps step ShortGap (start Kp Ki ratedRPM data) es :=
  always_iff_allSteps (Q := fun _ => True) (allSteps_true _ es) trivial
    (balanced_start Kp Ki ratedRPM data) (fun _ _ _ _ => trivial)
    fun _ e _ h _ => balanced_step_iff h e

/-- A call of `run` after `2 ^ 32 + 100000` microseconds, about 72 minutes, integrates 0.1 s. -/
theorem long_gap_lost :
    let es : List (Event ℚ) := [.sample 0 (2 ^ 32 + 100000), .call (.run 1)]
    AllSteps Drive.step Drive.Forward (Drive.start (4 / 25) (1 / 100) 24 (0, 0)) es ∧
      ¬ Always step Balanced (start (4 / 25) (1 / 100) 24 (0, 0)) es := by
  intro es
  refine ⟨by decide +kernel, fun h => ?_⟩
  have h2 := h 2
  exact absurd h2 (by unfold Balanced; decide +kernel)

end TimeLedger

end NucleoMotor
