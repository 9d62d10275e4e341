import NucleoMotor.Arith

/-!
# `PIcontrol`

The PI controller object of `source/PIcontrol.cpp`.  All its fields are `float`; a call of
`compensateSignal` returns the compensation and the updated object.
-/

namespace NucleoMotor

/-- The fields of class `PIcontrol`. -/
structure PIcontrol (α : Type) where
  Kp : α
  Ki : α
  thisError : α
  accError_t : α
  timestep : α
  compensateError : α
  deriving DecidableEq, Repr

namespace PIcontrol

variable {α : Type} [Arith α]

/-- The constructor `PIcontrol(float Kp, float Ki)`. -/
def construct (Kp Ki : α) : PIcontrol α where
  Kp := Kp
  Ki := Ki
  thisError := lit 0
  accError_t := lit 0
  timestep := lit 0
  compensateError := lit 0

def P_signal (p : PIcontrol α) : α := toFloat (p.Kp * p.thisError)

def I_signal (p : PIcontrol α) : α × PIcontrol α :=
  let p := { p with accError_t := toFloat (p.accError_t + toFloat (p.thisError * p.timestep)) }
  (toFloat (p.Ki * p.accError_t), p)

def compensateSignal (p : PIcontrol α) (error : α) (timestep : ℕ) : α × PIcontrol α :=
  let p := { p with compensateError := lit 0 }
  let p := { p with thisError := toFloat error }
  let p := { p with timestep := toFloat (lit timestep / lit 1000000) }
  let p := { p with compensateError := toFloat (p.compensateError + p.P_signal) }
  let (i, p) := p.I_signal
  let p := { p with compensateError := toFloat (p.compensateError + i) }
  (p.compensateError, p)

/-! ### Exact arithmetic -/

section Exact

variable (p : PIcontrol ℚ) (error : ℚ) (timestep : ℕ)

theorem compensateSignal_accError_t :
    (p.compensateSignal error timestep).2.accError_t =
      p.accError_t + error * (timestep / 1000000) := rfl

theorem compensateSignal_fst :
    (p.compensateSignal error timestep).1 =
      p.Kp * error + p.Ki * (p.accError_t + error * (timestep / 1000000)) := by
  show 0 + p.Kp * error + p.Ki * (p.accError_t + error * (timestep / 1000000)) = _
  rw [zero_add]

end Exact

end PIcontrol

end NucleoMotor
