import Mathlib.Tactic

/-!
# Numbers with infinities and a NaN

`Extended K` is an ordered field `K` with the special values of floating-point arithmetic, without
rounding.  Zero has no sign; as a divisor it counts as positive.

* `fin_add`, …, `fin_div`, `fin_lt_fin`, `fin_beq_fin`: numbers compute as in the field, and a
  quotient does unless its divisor is `0`.
* `nan_add`, …: a NaN makes every result a NaN, and every comparison false.
-/

/-- The numbers, the infinities and the NaN. -/
inductive Extended (K : Type)
  | fin (x : K)
  | posInf
  | negInf
  | nan
  deriving Repr

namespace Extended

variable {K : Type} [Field K] [LinearOrder K]

/-- The infinity of the sign of `x`, and no number for `0`. -/
def infinity (x : K) : Extended K := if 0 < x then posInf else if x < 0 then negInf else nan

protected def neg : Extended K → Extended K
  | fin x => fin (-x)
  | posInf => negInf
  | negInf => posInf
  | nan => nan

protected def add : Extended K → Extended K → Extended K
  | nan, _ => nan
  | _, nan => nan
  | fin x, fin y => fin (x + y)
  | posInf, negInf => nan
  | negInf, posInf => nan
  | fin _, y => y
  | x, _ => x

protected def mul : Extended K → Extended K → Extended K
  | nan, _ => nan
  | _, nan => nan
  | fin x, fin y => fin (x * y)
  | fin x, posInf => infinity x
  | fin x, negInf => infinity (-x)
  | posInf, fin y => infinity y
  | negInf, fin y => infinity (-y)
  | posInf, posInf => posInf
  | posInf, negInf => negInf
  | negInf, posInf => negInf
  | negInf, negInf => posInf

protected def div : Extended K → Extended K → Extended K
  | nan, _ => nan
  | _, nan => nan
  | fin x, fin y => if y = 0 then infinity x else fin (x / y)
  | fin _, _ => fin 0
  | x, fin y => if y < 0 then x.neg else x
  | _, _ => nan

protected def lt : Extended K → Extended K → Bool
  | nan, _ => false
  | _, nan => false
  | fin x, fin y => x < y
  | negInf, negInf => false
  | negInf, _ => true
  | _, negInf => false
  | posInf, _ => false
  | _, posInf => true

protected def beq : Extended K → Extended K → Bool
  | fin x, fin y => x = y
  | posInf, posInf => true
  | negInf, negInf => true
  | _, _ => false

instance instAdd : Add (Extended K) := ⟨Extended.add⟩

instance instSub : Sub (Extended K) := ⟨fun x y => x.add y.neg⟩

instance instMul : Mul (Extended K) := ⟨Extended.mul⟩

instance instDiv : Div (Extended K) := ⟨Extended.div⟩

instance instLT : LT (Extended K) := ⟨fun x y => x.lt y = true⟩

instance instDecidableLT : DecidableLT (Extended K) := fun x y =>
  inferInstanceAs (Decidable (x.lt y = true))

instance instBEq : BEq (Extended K) := ⟨Extended.beq⟩

/-! ### Numbers -/

omit [LinearOrder K] in
@[simp] theorem fin_add (x y : K) : (fin x + fin y : Extended K) = fin (x + y) := rfl

omit [LinearOrder K] in
@[simp] theorem fin_sub (x y : K) : (fin x - fin y : Extended K) = fin (x - y) := by
  show fin (x + -y) = _
  rw [← sub_eq_add_neg]

@[simp] theorem fin_mul (x y : K) : (fin x * fin y : Extended K) = fin (x * y) := rfl

theorem fin_div {y : K} (x : K) (hy : y ≠ 0) : (fin x / fin y : Extended K) = fin (x / y) :=
  if_neg hy

omit [Field K] in
@[simp] theorem fin_lt_fin {x y : K} : (fin x : Extended K) < fin y ↔ x < y := decide_eq_true_iff

omit [Field K] in
@[simp] theorem fin_beq_fin (x y : K) : ((fin x : Extended K) == fin y) = (x == y) := by
  show decide (x = y) = _
  rw [Bool.eq_iff_iff]
  simp

/-! ### NaNs -/

omit [LinearOrder K] in
@[simp] theorem nan_add (x : Extended K) : nan + x = nan := rfl

omit [LinearOrder K] in
@[simp] theorem add_nan (x : Extended K) : x + nan = nan := by cases x <;> rfl

omit [LinearOrder K] in
@[simp] theorem sub_nan (x : Extended K) : x - nan = nan := by cases x <;> rfl

@[simp] theorem nan_mul (x : Extended K) : nan * x = nan := rfl

@[simp] theorem mul_nan (x : Extended K) : x * nan = nan := by cases x <;> rfl

@[simp] theorem nan_div (x : Extended K) : nan / x = nan := rfl

omit [Field K] in
@[simp] theorem not_nan_lt (x : Extended K) : ¬ nan < x := Bool.false_ne_true

omit [Field K] in
@[simp] theorem not_lt_nan (x : Extended K) : ¬ x < nan := by cases x <;> exact Bool.false_ne_true

end Extended
