import NucleoMotor.PIcontrol
import NucleoMotor.Lib.Saturation
import NucleoMotor.Lib.Regulator

/-!
# `MotorControl`

The motor controller of `source/MotorControl.cpp`.  The encoder is seen through `SpeedData`, the
pair that `EncodedMotor::getSpeed` returns; its timestamp is given as the `long long` it is stored
in.  `run`, `stop` and the constructor take the pair the call reads.

* `motorEnable` is the duty cycle that the `PwmOut` object holds: `PwmOut.write` saturates its
  argument as `pwmout_write` does, and a new `PwmOut` has duty `0`.
* `motorDirection1`, `motorDirection2` are the direction pins; a new `DigitalOut` is low.

A call acts on the control state, `core`, only where the sample it reads is newer than `prevTime`:
`core_call_stale` and `core_call_fresh` say once what a call does, with the law `Core.apply` for a
fresh sample, and `steer_pins`, `run_pins`, `stop_pins` what happens to the direction pins.
-/

namespace NucleoMotor

open Saturation Regulator

/-- The level of a digital output pin. -/
abbrev DigitalOut := BitVec 1

/-- What `getSpeed` returns: the speed in rpm and the timestamp in microseconds. -/
abbrev SpeedData (α : Type) := α × ℤ

/-- `pwmout_write`: the duty cycle held after a write. -/
def PwmOut.write {α : Type} [Arith α] (value : α) : α :=
  if value < lit 0 then lit 0 else if lit 1 < value then lit 1 else value

inductive Direction
  | Clockwise
  | C_Clockwise
  deriving DecidableEq, Repr

/-- The levels of the direction pins in each setting. -/
def Direction.pins : Direction → DigitalOut × DigitalOut
  | .Clockwise => (0, 1)
  | .C_Clockwise => (1, 0)

/-- The fields of class `MotorControl` that its functions use. -/
structure MotorControl (α : Type) where
  picontrol : PIcontrol α
  motorEnable : α
  motorDirection1 : DigitalOut
  motorDirection2 : DigitalOut
  ratedRPM : ℕ
  speedVolt : α
  adjerrorVolt : α
  errorVolt : α
  compVolt : α
  speedData : SpeedData α
  speed : α
  thisTime : ℤ
  prevTime : ℤ
  deriving DecidableEq, Repr

namespace MotorControl

variable {α : Type} [Arith α]

def power (m : MotorControl α) (powerIn : α) : MotorControl α :=
  { m with motorEnable := PwmOut.write (toFloat powerIn) }

/-- `setDirection(Direction)`. -/
def setDirection (m : MotorControl α) : Direction → MotorControl α
  | .Clockwise => { m with motorDirection1 := 0, motorDirection2 := 1 }
  | .C_Clockwise => { m with motorDirection1 := 1, motorDirection2 := 0 }

/-- `setDirection(bool)`. -/
def setDirectionBool (m : MotorControl α) (direction : Bool) : MotorControl α :=
  if direction == false then m.setDirection .Clockwise else m.setDirection .C_Clockwise

def checkSteady (_ : MotorControl α) : Bool := false

/-- The saturation of `_errorVolt` to `_adjerrorVolt` in `run`. -/
def adjustError (errorVolt : α) : α :=
  if lit 5 < errorVolt then lit 5
  else if errorVolt < lit (-5) then lit (-5)
  else if errorVolt < lit (2 / 5) ∧ lit (-2 / 5) < errorVolt then lit 0
  else errorVolt

/-- The first line of `run`: the pins are decided anew only where `_compVolt == 0`. -/
def steer (m : MotorControl α) (refVolt : α) : MotorControl α :=
  if m.compVolt == lit 0 then
    (if lit 0 < refVolt then m.setDirection .Clockwise else m.setDirection .C_Clockwise)
  else m

/-- The reading of the encoder, the same four lines in `run` and `stop`. -/
def fetch (m : MotorControl α) (data : SpeedData α) : MotorControl α :=
  let m := { m with speedData := data }
  let m := { m with speed := m.speedData.1 }
  let m := { m with speedVolt := m.speed * lit 100 / lit 24 }
  { m with thisTime := m.speedData.2 }

/-- The computation of `_errorVolt` and `_adjerrorVolt` in `run`. -/
def aim (m : MotorControl α) (refVolt : α) : MotorControl α :=
  let m := { m with errorVolt := refVolt * lit 100 - m.speedVolt }
  { m with adjerrorVolt := adjustError m.errorVolt }

/-- The guarded block of `run`. -/
def drive (m : MotorControl α) : MotorControl α :=
  let timestep := unsignedLong (m.thisTime - m.prevTime)
  let (signal, picontrol) := m.picontrol.compensateSignal m.adjerrorVolt timestep
  let m := { m with picontrol := picontrol, compVolt := m.compVolt + signal }
  let m := { m with compVolt := if lit 100 < m.compVolt then lit 100 else m.compVolt }
  let m := m.power (m.compVolt / lit 100)
  { m with prevTime := m.thisTime }

/-- `run(refVolt)`, reading `data` from the encoder. -/
def run (m : MotorControl α) (data : SpeedData α) (refVolt : α) : Bool × MotorControl α :=
  let m := m.steer refVolt
  let m := m.fetch data
  let m := m.aim refVolt
  let m := if m.prevTime < m.thisTime then m.drive else m
  (m.checkSteady, m)

/-- The guarded block of `stop`. -/
def brake (m : MotorControl α) : MotorControl α :=
  let m := { m with compVolt := if lit 3 < m.speedVolt then m.compVolt - lit 3 else lit 0 }
  let m := m.power m.compVolt
  { m with prevTime := m.thisTime }

/-- `stop()`, reading `data` from the encoder. -/
def stop (m : MotorControl α) (data : SpeedData α) : MotorControl α :=
  let m := m.fetch data
  if m.prevTime < m.thisTime then m.brake else m

/-- The state before the constructor's body: the member initializers. -/
def initial (Kp Ki : α) (ratedRPM : ℕ) : MotorControl α where
  picontrol := PIcontrol.construct Kp Ki
  motorEnable := lit 0
  motorDirection1 := 0
  motorDirection2 := 0
  ratedRPM := ratedRPM
  speedVolt := lit 0
  adjerrorVolt := lit 0
  errorVolt := lit 0
  compVolt := lit 0
  speedData := (lit 0, 0)
  speed := lit 0
  thisTime := 0
  prevTime := 0

/-- The constructor; `data` is what its call of `stop` reads from the encoder. -/
def construct (Kp Ki : α) (ratedRPM : ℕ) (data : SpeedData α) : MotorControl α :=
  let m := initial Kp Ki ratedRPM
  let m := m.stop data
  m.setDirectionBool false

/-! ### The sampled control law

A call acts on the controller only through `core`, and only when the sample it reads is newer than
`prevTime`; the rest of the state is the pins and scratch fields that the next call overwrites. -/

/-- A call of the main loop. -/
inductive Call (α : Type)
  | run (refVolt : α)
  | stop
  deriving DecidableEq, Repr

/-- The effect of a call that reads `data`. -/
def call (m : MotorControl α) (data : SpeedData α) : Call α → MotorControl α
  | .run refVolt => (m.run data refVolt).2
  | .stop => m.stop data

/-- The fields that carry information from one sample to the next. -/
@[ext] structure Core (α : Type) where
  picontrol : PIcontrol α
  compVolt : α
  motorEnable : α
  prevTime : ℤ

def core (m : MotorControl α) : Core α := ⟨m.picontrol, m.compVolt, m.motorEnable, m.prevTime⟩

/-- `_errorVolt` for a reference and a measured speed. -/
def refError (refVolt speed : α) : α := refVolt * lit 100 - speed * lit 100 / lit 24

/-- The control law on a fresh sample. -/
def Core.apply (c : Core α) (data : SpeedData α) : Call α → Core α
  | .run refVolt =>
    let r := c.picontrol.compensateSignal (adjustError (refError refVolt data.1))
      (unsignedLong (data.2 - c.prevTime))
    let compVolt := if lit 100 < c.compVolt + r.1 then lit 100 else c.compVolt + r.1
    ⟨r.2, compVolt, PwmOut.write (toFloat (compVolt / lit 100)), data.2⟩
  | .stop =>
    let compVolt := if lit 3 < data.1 * lit 100 / lit 24 then c.compVolt - lit 3 else lit 0
    ⟨c.picontrol, compVolt, PwmOut.write (toFloat compVolt), data.2⟩

variable {m : MotorControl α} {data : SpeedData α} {c : Call α}

@[simp] theorem core_steer (m : MotorControl α) (refVolt : α) :
    (m.steer refVolt).core = m.core := by
  unfold steer
  split_ifs <;> rfl

theorem steer_prevTime (m : MotorControl α) (refVolt : α) :
    (m.steer refVolt).prevTime = m.prevTime := congrArg Core.prevTime (m.core_steer refVolt)

theorem run_snd (m : MotorControl α) (data : SpeedData α) (refVolt : α) :
    (m.run data refVolt).2 =
      if m.prevTime < data.2 then (((m.steer refVolt).fetch data).aim refVolt).drive
      else ((m.steer refVolt).fetch data).aim refVolt := by
  -- the guard of the source reads `prevTime` after the pins have been set
  rw [← steer_prevTime m refVolt]
  rfl

theorem stop_eq (m : MotorControl α) (data : SpeedData α) :
    m.stop data = if m.prevTime < data.2 then (m.fetch data).brake else m.fetch data := rfl

/-- Calls that read no new sample leave the control state alone. -/
theorem core_call_stale (h : data.2 ≤ m.prevTime) : (m.call data c).core = m.core := by
  cases c with
  | run refVolt =>
    rw [call, run_snd, if_neg (not_lt.2 h)]
    exact core_steer m refVolt
  | stop =>
    rw [call, stop_eq, if_neg (not_lt.2 h)]
    rfl

/-- Calls that read a new sample apply the control law to it. -/
theorem core_call_fresh (h : m.prevTime < data.2) :
    (m.call data c).core = m.core.apply data c := by
  cases c with
  | run refVolt =>
    rw [call, run_snd, if_pos h, ← core_steer m refVolt]
    rfl
  | stop =>
    rw [call, stop_eq, if_pos h]
    rfl

@[simp] theorem Core.apply_prevTime (c : Core α) (data : SpeedData α) (k : Call α) :
    (c.apply data k).prevTime = data.2 := by cases k <;> rfl

/-- The constructor's `stop` acts when the encoder already shows a sample. -/
theorem construct_core (Kp Ki : α) (ratedRPM : ℕ) (data : SpeedData α) :
    (construct Kp Ki ratedRPM data).core =
      if 0 < data.2 then
        (initial Kp Ki ratedRPM).core.apply data .stop else (initial Kp Ki ratedRPM).core := by
  have hstop : (construct Kp Ki ratedRPM data).core =
      ((initial Kp Ki ratedRPM).call data .stop).core := rfl
  rw [hstop]
  split_ifs with h
  · exact core_call_fresh h
  · exact core_call_stale (not_lt.1 h)

theorem construct_prevTime (Kp Ki : α) (ratedRPM : ℕ) {data : SpeedData α} (h : 0 ≤ data.2) :
    (construct Kp Ki ratedRPM data).prevTime = data.2 := by
  have hcore := congrArg Core.prevTime (construct_core Kp Ki ratedRPM data)
  refine hcore.trans ?_
  split_ifs with h0
  · exact Core.apply_prevTime _ _ _
  · exact le_antisymm h (not_lt.1 h0)

/-! ### The direction pins -/

/-- The levels of the two direction pins. -/
def pins (m : MotorControl α) : DigitalOut × DigitalOut := (m.motorDirection1, m.motorDirection2)

omit [Arith α] in
@[simp] theorem setDirection_pins (m : MotorControl α) (d : Direction) :
    (m.setDirection d).pins = d.pins := by cases d <;> rfl

theorem steer_pins (m : MotorControl α) (refVolt : α) :
    (m.steer refVolt).pins = if m.compVolt == lit 0 then
      (if lit 0 < refVolt then Direction.Clockwise.pins else Direction.C_Clockwise.pins)
    else m.pins := by
  unfold steer
  split_ifs <;> simp

/-- `run` leaves the pins as its first line set them. -/
theorem run_pins (m : MotorControl α) (data : SpeedData α) (refVolt : α) :
    (m.run data refVolt).2.pins = (m.steer refVolt).pins := by
  rw [run_snd]
  split_ifs <;> rfl

theorem stop_pins (m : MotorControl α) (data : SpeedData α) : (m.stop data).pins = m.pins := by
  rw [stop_eq]
  split_ifs <;> rfl

theorem construct_pins (Kp Ki : α) (ratedRPM : ℕ) (data : SpeedData α) :
    (construct Kp Ki ratedRPM data).pins = Direction.Clockwise.pins := rfl

end MotorControl

end NucleoMotor
