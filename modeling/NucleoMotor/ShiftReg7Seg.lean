import Mathlib.Analysis.SpecialFunctions.Log.Base
import NucleoMotor.Lib.ShiftChain
import NucleoMotor.MotorControl

/-!
# `ShiftReg7Seg`

The display driver of `source/ShiftReg7Seg.h` and `source/ShiftReg7Seg.cpp`.

* `frame` is the array that `display` computes and hands to `displayDigits`.  It is written over
  any field with a floor and a `log10` (`Log10`), with the integer conversions of the code: a
  conversion to `unsigned` out of range, like an index outside the array, has no value.
* `displayDigits` shifts an array out to the hardware of `Chain`: a daisy chain of 8-bit shift
  registers, and the outputs that a rising edge of the latch pin copies them to.
-/

namespace NucleoMotor

/-- What `log10` returns: no number for negative arguments, and minus infinity for `0`. -/
inductive LogVal (K : Type)
  | nan
  | negInf
  | fin (x : K)
  deriving DecidableEq

/-- The exact `log10`, up to what its integer part does not show. -/
class Log10 (K : Type) [Field K] [LinearOrder K] [FloorRing K] where
  log10 : K → LogVal K
  log10_neg : ∀ v < 0, log10 v = .nan
  log10_zero : log10 0 = .negInf
  log10_pos : ∀ v, 0 < v → ∃ x, log10 v = .fin x ∧ ⌊x⌋ = Int.log 10 v

/-- The real logarithm. -/
noncomputable instance : Log10 ℝ where
  log10 v := if v < 0 then .nan else if v = 0 then .negInf else .fin (Real.logb 10 v)
  log10_neg v h := if_pos h
  log10_zero := by simp
  log10_pos v h := by
    refine ⟨Real.logb 10 v, ?_, ?_⟩
    · rw [if_neg h.not_gt, if_neg h.ne']
    · exact_mod_cast Real.floor_logb_natCast (b := 10) h.le

/-- On the rationals, the integer part of the logarithm. -/
instance : Log10 ℚ where
  log10 v := if v < 0 then .nan else if v = 0 then .negInf else .fin (Int.log 10 v : ℤ)
  log10_neg v h := if_pos h
  log10_zero := by simp
  log10_pos v h := by
    refine ⟨(Int.log 10 v : ℤ), ?_, Int.floor_intCast _⟩
    rw [if_neg h.not_gt, if_neg h.ne']

/-- The bytes of the characters: segments g, f, e, d, c, b, a and the decimal point. -/
def characterMap : Fin 11 → BitVec 8 :=
  ![0b01111110, 0b00001100, 0b10110110, 0b10011110, 0b11001100, 0b11011010, 0b11111010, 0b00001110,
    0b11111110, 0b11011110, 0b11110010]

/-- Conversion of a floating-point integer to `unsigned`. -/
def castUnsigned (z : ℤ) : Option ℕ := if 0 ≤ z ∧ z < 2 ^ 32 then some z.toNat else none

section Frame

variable {K : Type} [Field K] [LinearOrder K] [FloorRing K] [Log10 K]

/-- `logVal>=0 ? logVal : logVal = 0`. -/
def LogVal.orZero : LogVal K → K
  | .nan => 0
  | .negInf => 0
  | .fin x => if 0 ≤ x then x else 0

def numberOfDigits (value : K) : Option ℕ := castUnsigned (⌊(Log10.log10 value).orZero⌋ + 1)

/-- `int power = i+1-numberOfDigits`: a 32-bit unsigned difference, converted to `int`. -/
def power (i numberOfDigits : ℕ) : ℤ := Int.bmod ((i : ℤ) + 1 - numberOfDigits) (2 ^ 32)

/-- The byte that the loop of `display` computes for index `i`. -/
def character (value : K) (numberOfDigits i : ℕ) : Option (BitVec 8) := do
  let scaler : K := 10 ^ power i numberOfDigits
  let scaledVal := value * scaler
  let flooredScaledVal ← castUnsigned ⌊scaledVal⌋
  let digit := flooredScaledVal % 10
  some (characterMap (Fin.ofNat 11 digit))

/-- The array that `display(value)` hands to `displayDigits`. -/
def frame (numberOfDisplay : ℕ) (value : K) : Option (List (BitVec 8)) := do
  let numberOfDigits ← numberOfDigits value
  if numberOfDigits > numberOfDisplay then
    some (List.replicate numberOfDisplay (characterMap 10))
  else
    let numArray ← (List.range numberOfDisplay).foldlM (fun numArray i => do
      let byte ← character value numberOfDigits i
      some (numArray.set i byte)) (List.replicate numberOfDisplay 0)
    let last := unsignedLong (numberOfDigits - 1)
    let byte ← numArray[last]?
    some (numArray.set last (byte ||| 0b00000001))

end Frame

/-- The shift registers, the one nearest MOSI first, and the outputs. -/
@[ext] structure Chain where
  registers : List (BitVec 8)
  outputs : List (BitVec 8)
  deriving DecidableEq

/-- The driver's fields that its functions use, with the hardware it drives. -/
structure ShiftReg7Seg where
  numberOfDisplay : ℕ
  latchPin : DigitalOut
  chain : Chain
  deriving DecidableEq

namespace ShiftReg7Seg

variable (miso : Chain → BitVec 8 → BitVec 8)

def setNumberOfDisplay (s : ShiftReg7Seg) (numberOfDisplay : ℕ) : ShiftReg7Seg :=
  { s with numberOfDisplay := numberOfDisplay }

/-- `_latchPin = level`: a rising edge copies the registers to the outputs. -/
def setLatch (s : ShiftReg7Seg) (level : DigitalOut) : ShiftReg7Seg :=
  { s with
    latchPin := level
    chain := if s.latchPin = 0 ∧ level = 1 then ⟨s.chain.registers, s.chain.registers⟩
      else s.chain }

/-- `_spiPtr->write(value)`, which returns what `miso` shows meanwhile. -/
def spiWrite (s : ShiftReg7Seg) (value : BitVec 8) : BitVec 8 × ShiftReg7Seg :=
  (miso s.chain value,
    { s with chain := { s.chain with registers := ShiftChain.write s.chain.registers value } })

/-- The body of the loop of `displayDigits`. -/
def shiftOut (acc : List (BitVec 8) × ShiftReg7Seg) (digit : BitVec 8) :
    List (BitVec 8) × ShiftReg7Seg :=
  let (returnArray, s) := acc
  let s := s.setLatch 0
  let (_, s) := s.spiWrite miso digit
  let (response, s) := s.spiWrite miso digit
  let returnArray := returnArray ++ [response]
  (returnArray, s.setLatch 1)

/-- `displayDigits`, which goes through the array from its end. -/
def displayDigits (s : ShiftReg7Seg) (digitArray : List (BitVec 8)) :
    List (BitVec 8) × ShiftReg7Seg :=
  digitArray.reverse.foldl (shiftOut miso) ([], s)

def display {K : Type} [Field K] [LinearOrder K] [FloorRing K] [Log10 K] (s : ShiftReg7Seg)
    (value : K) : Option (List (BitVec 8) × ShiftReg7Seg) :=
  (frame s.numberOfDisplay value).map (s.displayDigits miso)

end ShiftReg7Seg

end NucleoMotor
