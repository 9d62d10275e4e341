import Mathlib.Tactic

/-!
# The arithmetic of the firmware

The controller and the encoder compute with `double` and `float` values.  The model of the code
is written once for an arbitrary arithmetic `α` with the operations the code uses (`Arith`):

* `lit q` is the value of the literal or converted integer `q`;
* `toFloat` is the narrowing of a `double` to a `float`, written wherever the source stores a
  result in a `float` or passes it as one.

No law is assumed of an `Arith`, so what is proved for all of them holds of rounded arithmetic
with infinities and NaNs.  The exact arithmetic is the instance on `ℚ`, where narrowing is the
identity.  Integers are `ℕ` and `ℤ`: the 64-bit microsecond counters do not wrap within the life
of the device, and `unsignedLong` is the narrowing to the 32 bits of an `unsigned long`.
-/

namespace NucleoMotor

/-- The operations of the floating-point types. -/
class Arith (α : Type) extends Add α, Sub α, Mul α, Div α, LT α, BEq α where
  lit : ℚ → α
  toFloat : α → α
  decLt : DecidableLT α

export Arith (lit toFloat)

instance Arith.decidableLT {α : Type} [Arith α] : DecidableLT α := Arith.decLt

/-- Exact arithmetic: no operation rounds. -/
instance : Arith ℚ where
  lit q := q
  toFloat x := x
  decLt := inferInstance

@[simp] theorem lit_rat (q : ℚ) : (lit q : ℚ) = q := rfl

/-- Conversion to `unsigned long`, which has 32 bits on the target, as `unsigned` has. -/
def unsignedLong (z : ℤ) : ℕ := (z % 2 ^ 32).toNat

theorem unsignedLong_of_lt {z : ℤ} (h0 : 0 ≤ z) (h : z < 2 ^ 32) : (unsignedLong z : ℤ) = z := by
  rw [unsignedLong, Int.emod_eq_of_lt h0 h, Int.toNat_of_nonneg h0]

/-- Narrowing never makes a nonnegative number larger. -/
theorem unsignedLong_le {z : ℤ} (h0 : 0 ≤ z) : (unsignedLong z : ℤ) ≤ z := by
  rw [unsignedLong, Int.toNat_of_nonneg (Int.emod_nonneg z (by omega))]
  omega

/-- Narrowing loses nothing exactly in the range of 32 bits. -/
theorem unsignedLong_eq_iff {z : ℤ} (h0 : 0 ≤ z) : (unsignedLong z : ℤ) = z ↔ z < 2 ^ 32 := by
  constructor
  · intro h
    rw [← h, unsignedLong]
    omega
  · exact unsignedLong_of_lt h0

end NucleoMotor
