import NucleoMotor.MotorControl

/-!
# `EncodedMotor`

The encoder of `source/EncodedMotor.h` and `source/EncodedMotor.cpp`.  The interrupts of the two
encoder pins call `incrementPulse`, the sampling ticker calls `saveData`, which reads the
microsecond timer; the constructor attaches these callbacks according to the encoding and `Stop`
detaches them.

`saveData` divides the rotation by the window in minutes, `time_m`.
-/

namespace NucleoMotor

inductive EncodeType
  | X1
  | X2
  | X4
  deriving DecidableEq, Repr

/-- The edges of the two encoder pins. -/
inductive Edge
  | ARise
  | AFall
  | BRise
  | BFall
  deriving DecidableEq, Repr

/-- Which edges of the encoder pins call `incrementPulse`. -/
@[ext] structure Attached where
  ARise : Bool
  AFall : Bool
  BRise : Bool
  BFall : Bool
  deriving DecidableEq, Repr

def Attached.calls (a : Attached) : Edge → Bool
  | .ARise => a.ARise
  | .AFall => a.AFall
  | .BRise => a.BRise
  | .BFall => a.BFall

/-- The fields of class `EncodedMotor`; `ticker` says whether `saveData` is attached to it. -/
structure EncodedMotor (α : Type) where
  encoderInterrupt : Attached
  pulsePerRotation : ℕ
  samplingRate : α
  samplingPeriod : α
  encodeType : EncodeType
  speed : α
  pulseBuffer : ℕ
  previousSaveTime : ℕ
  previousReadTime : ℕ
  ticker : Bool
  deriving DecidableEq, Repr

namespace EncodedMotor

variable {α : Type} [Arith α]

/-- The edges that the constructor attaches and `Stop` detaches. -/
def edges (old : Attached) (on : Bool) : EncodeType → Attached
  | .X1 => { old with ARise := on }
  | .X2 => { old with ARise := on, AFall := on }
  | .X4 => { ARise := on, AFall := on, BRise := on, BFall := on }

/-- The constructor. -/
def construct (pulsePerRotation : ℕ) (samplingRate : α) (encodeType : EncodeType) :
    EncodedMotor α where
  encoderInterrupt := edges ⟨false, false, false, false⟩ true encodeType
  pulsePerRotation := pulsePerRotation
  samplingRate := samplingRate
  samplingPeriod := toFloat (lit 1 / samplingRate)
  encodeType := encodeType
  speed := lit 0
  pulseBuffer := 0
  previousSaveTime := 0
  previousReadTime := 0
  ticker := true

def incrementPulse (e : EncodedMotor α) : EncodedMotor α :=
  { e with pulseBuffer := e.pulseBuffer + 1 }

/-- `time_us / 60 / 1000000.0`: the first division is one of integers. -/
def time_m (time_us : ℕ) : α := lit (time_us / 60 : ℕ) / lit 1000000

/-- `saveData`, with `currentTime` read from the timer. -/
def saveData (e : EncodedMotor α) (currentTime : ℕ) : EncodedMotor α :=
  let time_us := currentTime - e.previousSaveTime
  let e := { e with previousSaveTime := currentTime }
  let rotation := toFloat (toFloat (lit e.pulseBuffer) / toFloat (lit e.pulsePerRotation))
  let e := { e with pulseBuffer := 0 }
  { e with speed := rotation / time_m time_us }

def Stop (e : EncodedMotor α) : EncodedMotor α :=
  { e with encoderInterrupt := edges e.encoderInterrupt false e.encodeType, ticker := false }

/-- `getSpeed`, its timestamp as the `long long` in which the callers store it. -/
def getSpeed (e : EncodedMotor α) : SpeedData α :=
  (e.speed, (e.previousSaveTime : ℤ) - e.previousReadTime)

/-- What interrupts the main loop: an edge of an encoder pin, or the sampling ticker. -/
inductive Interrupt
  | incrementPulse
  | saveData (currentTime : ℕ)
  deriving DecidableEq, Repr

def interrupt (e : EncodedMotor α) : Interrupt → EncodedMotor α
  | .incrementPulse => e.incrementPulse
  | .saveData currentTime => e.saveData currentTime

/-- The timer's readings are `window` apart. -/
def Spaced (window : ℕ) (e : EncodedMotor α) : Interrupt → Prop
  | .incrementPulse => True
  | .saveData currentTime => e.previousSaveTime + window ≤ currentTime

instance (window : ℕ) (e : EncodedMotor α) : ∀ i, Decidable (e.Spaced window i)
  | .incrementPulse => inferInstanceAs (Decidable True)
  | .saveData currentTime => inferInstanceAs (Decidable (e.previousSaveTime + window ≤ currentTime))

/-! ### Signals of the hardware -/

/-- An edge, or the end of a sampling period at a reading of the timer. -/
inductive Signal
  | edge (edge : Edge)
  | period (currentTime : ℕ)
  deriving DecidableEq, Repr

/-- Signals interrupt only where a callback is attached. -/
def signal (e : EncodedMotor α) : Signal → EncodedMotor α
  | .edge edge => if e.encoderInterrupt.calls edge then e.interrupt .incrementPulse else e
  | .period currentTime => if e.ticker then e.interrupt (.saveData currentTime) else e

/-- The encoder's edges are attached as its constructor did. -/
def Wired (e : EncodedMotor α) : Prop :=
  e.encoderInterrupt = edges ⟨false, false, false, false⟩ true e.encodeType

theorem wired_construct (pulsePerRotation : ℕ) (samplingRate : α) (encodeType : EncodeType) :
    (construct pulsePerRotation samplingRate encodeType).Wired := rfl

theorem Wired.interrupt {e : EncodedMotor α} (h : e.Wired) (i : Interrupt) :
    (e.interrupt i).Wired := by
  cases i <;> exact h

/-- `Stop` detaches every edge that the constructor attached, and the ticker. -/
theorem Wired.signal_Stop {e : EncodedMotor α} (h : e.Wired) (s : Signal) :
    e.Stop.signal s = e.Stop := by
  have hedges : e.Stop.encoderInterrupt = ⟨false, false, false, false⟩ := by
    show edges e.encoderInterrupt false e.encodeType = _
    rw [h]
    cases e.encodeType <;> rfl
  cases s with
  | edge edge =>
    rw [signal, hedges]
    cases edge <;> rfl
  | period currentTime => rfl

end EncodedMotor

end NucleoMotor
