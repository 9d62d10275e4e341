import NucleoMotor.ShiftReg7Seg

/-!
# The way to the display

On a chain with one register for each digit `displayDigits` would bring digit `j` to register `j`
if it wrote each one once.  It writes each one twice, the second time for the returned byte, so
that register `j` gets digit `j / 2` (`outputs_eq`): the frame arrives intact exactly when all its
digits are equal (`intact_iff`).
-/

namespace NucleoMotor

namespace ShiftReg7Seg

variable (miso : Chain → BitVec 8 → BitVec 8)

/-- One iteration writes the digit twice and shows the registers at the outputs. -/
theorem shiftOut_chain (acc : List (BitVec 8) × ShiftReg7Seg) (digit : BitVec 8) :
    (shiftOut miso acc digit).2.chain =
      let registers := ShiftChain.writes acc.2.chain.registers (List.replicate 2 digit)
      ⟨registers, registers⟩ := by
  simp [shiftOut, setLatch, spiWrite, ShiftChain.writes, List.replicate_succ]

/-- After any digits the registers and the outputs hold them twice each, the latest first. -/
theorem foldl_shiftOut_chain {ds : List (BitVec 8)} (h : ds ≠ [])
    (acc : List (BitVec 8) × ShiftReg7Seg) :
    (ds.foldl (shiftOut miso) acc).2.chain =
      let registers := ShiftChain.writes acc.2.chain.registers (ShiftChain.repeated 2 ds)
      ⟨registers, registers⟩ := by
  induction ds generalizing acc with
  | nil => exact absurd rfl h
  | cons d ds ih =>
    have hstep := shiftOut_chain miso acc d
    have hsplit (regs : List (BitVec 8)) : ShiftChain.writes regs (ShiftChain.repeated 2 (d :: ds)) =
        ShiftChain.writes (ShiftChain.writes regs (List.replicate 2 d))
          (ShiftChain.repeated 2 ds) := by
      simp [ShiftChain.writes, ShiftChain.repeated]
    by_cases hds : ds = []
    · subst hds
      rw [hsplit]
      simpa [ShiftChain.repeated, ShiftChain.writes] using hstep
    · rw [List.foldl_cons, ih hds, hstep, hsplit]

/-- The outputs after `displayDigits`, for a chain of any earlier content. -/
theorem outputs_eq (s : ShiftReg7Seg) {digitArray : List (BitVec 8)} (h : digitArray ≠ [])
    (hlen : s.chain.registers.length = digitArray.length) :
    (s.displayDigits miso digitArray).2.chain.outputs =
      (ShiftChain.repeated 2 digitArray).take digitArray.length := by
  have hne : digitArray.reverse ≠ [] := by simpa using h
  have hchain := foldl_shiftOut_chain miso hne ([], s)
  rw [displayDigits, hchain]
  rw [ShiftChain.writes_eq, ShiftChain.repeated_reverse, List.reverse_reverse, hlen]
  -- the digits, twice each, fill the chain on their own
  exact List.take_append_of_le_length (by simp; omega)

/-- **Exactly when the frame reaches the display intact**: when all its digits are equal. -/
theorem intact_iff (s : ShiftReg7Seg) {digitArray : List (BitVec 8)} (h : digitArray ≠ [])
    (hlen : s.chain.registers.length = digitArray.length) :
    (s.displayDigits miso digitArray).2.chain.outputs = digitArray ↔
      ∀ x ∈ digitArray, ∀ y ∈ digitArray, x = y := by
  rw [outputs_eq miso s h hlen]
  exact ShiftChain.repeated_take_eq_iff le_rfl digitArray

/-- The error frame arrives. -/
theorem intact_iff_applies :
    let s : ShiftReg7Seg := ⟨4, 1, ⟨[1, 2, 3, 4], [5, 6, 7, 8]⟩⟩
    let digitArray := List.replicate 4 (characterMap 10)
    (s.displayDigits (fun _ _ => 0) digitArray).2.chain.outputs = digitArray := by
  intro s digitArray
  have hne : digitArray ≠ [] := by decide
  exact (intact_iff _ s hne rfl).2 (by decide)

/-- The display of `12` on two digits shows `1` twice. -/
theorem displayDigits_repeats :
    let s : ShiftReg7Seg := ⟨2, 1, ⟨[0, 0], [0, 0]⟩⟩
    let digitArray := [characterMap 1, characterMap 2 ||| 0b00000001]
    frame 2 (12 : ℚ) = some digitArray ∧
      (s.displayDigits (fun _ _ => 0) digitArray).2.chain.outputs ≠ digitArray ∧
      (s.displayDigits (fun _ _ => 0) digitArray).2.chain.outputs =
        [characterMap 1, characterMap 1] := by
  decide +kernel

end ShiftReg7Seg

end NucleoMotor
