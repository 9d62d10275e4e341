import NucleoMotor.Displayable
import NucleoMotor.DisplayChain

/-!
# Reading the display

A reader takes the digits off the characters and the place of the point off its segment.  What is
read of a frame is the least of the values that are shown so (`reading_isLeast`), and readings are
ordered as the values are (`reading_order`).  On the way to the display the frames are lost
(`arrives_iff`).  The values are real numbers, and products and logarithms exact: a `double` may lie
below the product, so that `2.3` is read as `2.390` on four places, and its `log10` may be a digit
too large.
-/

namespace NucleoMotor

open Digits

/-- The digit of a character, with or without a point. -/
def readDigit (byte : BitVec 8) : Option (Fin 10) :=
  (List.finRange 10).find? fun y => clearPoint byte = characterMap y.castSucc

/-- The number of a frame, with the point after its first character that has one. -/
def reading (K : Type) [Field K] (bytes : List (BitVec 8)) : Option K := do
  let point ← bytes.findIdx? hasPoint
  let digits ← bytes.mapM readDigit
  some (value K 10 bytes.length (point + 1) fun i => (digits.getD i 0 : Fin 10))

theorem readDigit_eq {byte : BitVec 8} {y : Fin 10}
    (h : clearPoint byte = characterMap y.castSucc) : readDigit byte = some y := by
  rw [readDigit, h]
  clear h
  decide +revert

theorem mapM_eq_map {β γ : Type*} {f : β → Option γ} {l : List β} {g : ℕ → γ}
    (h : ∀ i < l.length, l[i]?.bind f = some (g i)) :
    l.mapM f = some ((List.range l.length).map g) := by
  induction l generalizing g with
  | nil => rfl
  | cons a l ih =>
    have hfirst : f a = some (g 0) := h 0 (Nat.succ_pos _)
    have hrest := ih (g := fun i => g (i + 1)) fun i hi => h (i + 1) (Nat.succ_lt_succ hi)
    simp [List.mapM_cons, hfirst, hrest, List.range_succ_eq_map, Function.comp_def]

section Frame

variable {K : Type} [Field K] [LinearOrder K] {d k : ℕ} {v : K}

theorem Shows.reading {x : ℕ → Fin 10} {bytes : List (BitVec 8)} (h : Shows d v k x bytes) :
    reading K bytes = some (shown K d k x) := by
  have hk1 := h.least.1.1
  have hpoint : bytes.findIdx? hasPoint = some (k - 1) := by
    have hp (i : ℕ) (hi : i < bytes.length) : hasPoint bytes[i] = decide (i = k - 1) := by
      have hi' := h.point i (h.length ▸ hi)
      simpa [List.getElem?_eq_getElem hi] using hi'
    refine List.findIdx?_eq_some_iff_getElem.2 ⟨h.length ▸ h.inside, ?_, fun j hj => ?_⟩
    · simp [hp]
    · simp [hp, hj.ne]
  have hdigits : bytes.mapM readDigit = some ((List.range bytes.length).map x) := by
    refine mapM_eq_map fun i hi => ?_
    have hi' := (h.digits i (h.length ▸ hi) (x i)).2 rfl
    rw [List.getElem?_eq_getElem hi, Option.map_some, Option.some_inj] at hi'
    rw [List.getElem?_eq_getElem hi, Option.bind_some, readDigit_eq hi']
  rw [NucleoMotor.reading, hpoint, hdigits, shown, Option.bind_eq_bind, Option.bind_some,
    Option.bind_eq_bind, Option.bind_some, Nat.sub_add_cancel hk1, h.length]
  refine congrArg some (Finset.sum_congr rfl fun i hi => ?_)
  have hi := Finset.mem_range.1 hi
  simp [List.getD, hi]

variable [IsStrictOrderedRing K] [FloorRing K]

/-- Below a power of ten above the last place is a value when its truncation is. -/
theorem truncated_lt_iff {e : ℤ} {n : ℕ} (he : 0 ≤ e + n) :
    truncated 10 v e < 10 ^ n ↔ v < 10 ^ n := by
  have hlt (w : K) : w < 10 ^ n ↔ ⌊w * (10 : ℕ) ^ (-(n : ℤ))⌋ < 1 := by
    rw [Int.floor_lt, zpow_neg, zpow_natCast, ← div_eq_mul_inv, div_lt_iff₀ (by positivity)]
    simp
  rw [hlt, hlt, floor_truncated v (by norm_num) (by omega)]

variable [Log10 K]

/-- The value cut off after the last place is shown like the value. -/
theorem frame_truncated (hd : 1 ≤ d) (hd9 : d ≤ 9) (h0 : 0 ≤ v) (hv : v < 10 ^ d)
    (hleast : IsLeast {n : ℕ | 1 ≤ n ∧ v < 10 ^ n} k) :
    frame d (truncated 10 v (-k + d)) = frame d v := by
  set t := truncated 10 v (-k + d)
  have hkd : k ≤ d := hleast.2 ⟨hd, hv⟩
  have hlt (n : ℕ) : t < 10 ^ n ↔ v < 10 ^ n := truncated_lt_iff (by omega)
  obtain ⟨k₁, hk₁, hleast₁⟩ := exists_numberOfDigits hd (by omega) hv
  obtain ⟨k₂, hk₂, hleast₂⟩ := exists_numberOfDigits hd (by omega) ((hlt d).2 hv)
  simp only [hlt] at hleast₂
  obtain rfl := hleast₁.unique hleast
  obtain rfl := hleast₂.unique hleast
  -- no character looks below the last place
  have hsame (i : ℕ) (hi : i < d) : character t k₂ i = character v k₂ i := by
    rw [character, character, power_eq (by omega) (by omega)]
    have hfloor : ⌊t * ((10 : ℕ) : K) ^ ((i : ℤ) + 1 - k₂)⌋ =
        ⌊v * ((10 : ℕ) : K) ^ ((i : ℤ) + 1 - k₂)⌋ :=
      floor_truncated v (by norm_num) (by omega)
    rw [Nat.cast_ofNat] at hfloor
    rw [hfloor]
  have hchar (i : ℕ) : ∃ byte, i < d → character v k₂ i = some byte := by
    by_cases hi : i < d
    · obtain ⟨x, -, hx⟩ := character_eq h0 hleast.1.2 (by omega) (show i < 9 by omega)
      exact ⟨_, fun _ => hx⟩
    · exact ⟨0, fun h => absurd h hi⟩
  choose b hb using hchar
  have h1 := hleast.1.1
  rw [frame_eq hk₁ h1 hkd (by omega) hb,
    frame_eq hk₂ h1 hkd (by omega) fun i hi => (hsame i hi).trans (hb i hi)]

/-- What is read of a frame is the value cut off. -/
theorem exists_reading (hd : 1 ≤ d) (hd9 : d ≤ 9) (h0 : 0 ≤ v) (hv : v < 10 ^ d) :
    ∃ k bytes, IsLeast {n : ℕ | 1 ≤ n ∧ v < 10 ^ n} k ∧ frame d v = some bytes ∧
      reading K bytes = some (truncated 10 v (-k + d)) := by
  obtain ⟨k, x, bytes, -, hframe, hshows⟩ := shows_frame hd hd9 h0 hv
  refine ⟨k, bytes, hshows.least, hframe, ?_⟩
  have hvalue := truncated_eq_value (b := 10) (x := fun i => x i) v (by norm_num) hshows.le
    (by rw [Nat.cast_ofNat]; exact hshows.lt)
  rw [hshows.reading, hvalue]
  rfl

end Frame

/-- **What is read is the least value that is shown so**: in exact arithmetic a value that the
display can show is read as one that has the same frame and is not above it. -/
theorem reading_isLeast {d : ℕ} (hd : 1 ≤ d) (hd9 : d ≤ 9) {v : ℝ} (h0 : 0 ≤ v) (hv : v < 10 ^ d) :
    ∃ bytes x, frame d v = some bytes ∧ reading ℝ bytes = some x ∧
      IsLeast {w | 0 ≤ w ∧ w < 10 ^ d ∧ frame d w = some bytes} x := by
  obtain ⟨k, bytes, hleast, hframe, hreading⟩ := exists_reading hd hd9 h0 hv
  refine ⟨bytes, _, hframe, hreading, ⟨?_, ?_, ?_⟩, ?_⟩
  · exact truncated_nonneg _ h0
  · have hkd := hleast.2 ⟨hd, hv⟩
    exact (truncated_lt_iff (by omega)).2 hv
  · rw [frame_truncated hd hd9 h0 hv hleast, hframe]
  · rintro w ⟨hw0, hw, hwframe⟩
    obtain ⟨k', bytes', -, hframe', hreading'⟩ := exists_reading hd hd9 hw0 hw
    obtain rfl := Option.some.inj (hwframe.symm.trans hframe')
    rw [Option.some.inj (hreading.symm.trans hreading')]
    exact truncated_le w _ (by norm_num)

theorem reading_isLeast_applies :
    ∃ bytes x, frame 4 (25 / 2 : ℝ) = some bytes ∧ reading ℝ bytes = some x ∧
      IsLeast {w | 0 ≤ w ∧ w < 10 ^ 4 ∧ frame 4 w = some bytes} x :=
  reading_isLeast (by norm_num) (by norm_num) (by norm_num) (by norm_num)

/-- **Readings are ordered as the values are**, in exact arithmetic, and equal only for equal
frames. -/
theorem reading_order {d : ℕ} (hd : 1 ≤ d) (hd9 : d ≤ 9) {v w x y : ℝ} (hv0 : 0 ≤ v)
    (hw : w < 10 ^ d) (hvw : v ≤ w) {bytes bytes' : List (BitVec 8)}
    (hv' : frame d v = some bytes) (hw' : frame d w = some bytes')
    (hx : reading ℝ bytes = some x) (hy : reading ℝ bytes' = some y) :
    x ≤ y ∧ (x = y ↔ bytes = bytes') := by
  obtain ⟨k, b, hleast, hframe, hreading⟩ := exists_reading hd hd9 hv0 (hvw.trans_lt hw)
  obtain ⟨k', b', hleast', hframe', hreading'⟩ := exists_reading hd hd9 (hv0.trans hvw) hw
  obtain rfl := Option.some.inj (hv'.symm.trans hframe)
  obtain rfl := Option.some.inj (hw'.symm.trans hframe')
  obtain rfl := Option.some.inj (hx.symm.trans hreading)
  obtain rfl := Option.some.inj (hy.symm.trans hreading')
  refine ⟨?_, fun h => ?_, fun h => ?_⟩
  · -- more digits before the point are read as a number above all with fewer
    rcases (hleast.2 ⟨hleast'.1.1, hvw.trans_lt hleast'.1.2⟩).eq_or_lt with rfl | hlt
    · exact truncated_mono _ (by norm_num) hvw
    · have hbelow : ¬ w < 10 ^ k := fun hwk => absurd (hleast'.2 ⟨hleast.1.1, hwk⟩) (by omega)
      have hkd := hleast'.2 ⟨hd, hw⟩
      have habove : (10 : ℝ) ^ k ≤ truncated 10 w (-k' + d) :=
        not_lt.1 fun h => hbelow ((truncated_lt_iff (by omega)).1 h)
      exact ((truncated_le v _ (by norm_num)).trans hleast.1.2.le).trans habove
  · have hsame := frame_truncated hd hd9 hv0 (hvw.trans_lt hw) hleast
    rw [h, frame_truncated hd hd9 (hv0.trans hvw) hw hleast', hframe, hframe'] at hsame
    exact (Option.some.inj hsame).symm
  · subst h
    exact Option.some.inj (hreading.symm.trans hreading')

theorem reading_order_applies : ∃ bytes bytes' x y, frame 4 (25 / 2 : ℝ) = some bytes ∧
    frame 4 (99 / 4 : ℝ) = some bytes' ∧ reading ℝ bytes = some x ∧ reading ℝ bytes' = some y ∧
      x ≤ y ∧ (x = y ↔ bytes = bytes') := by
  obtain ⟨k, bytes, -, hv', hx⟩ := exists_reading (d := 4) (v := (25 / 2 : ℝ)) (by norm_num)
    (by norm_num) (by norm_num) (by norm_num)
  obtain ⟨k', bytes', -, hw', hy⟩ := exists_reading (d := 4) (v := (99 / 4 : ℝ)) (by norm_num)
    (by norm_num) (by norm_num) (by norm_num)
  refine ⟨bytes, bytes', _, _, hv', hw', hx, hy, ?_⟩
  exact reading_order (by norm_num) (by norm_num) (by norm_num) (by norm_num) (by norm_num) hv' hw'
    hx hy

/-! ### What arrives -/

/-- The characters of a value that fits are not all equal: one of them has the point. -/
theorem Shows.exists_ne {K : Type} [Field K] [LinearOrder K] {d k : ℕ} {v : K} {x : ℕ → Fin 10}
    {bytes : List (BitVec 8)} (h : Shows d v k x bytes) (hd : 2 ≤ d) :
    ∃ byte ∈ bytes, ∃ byte' ∈ bytes, byte ≠ byte' := by
  obtain ⟨i, hi, hik⟩ : ∃ i < d, i ≠ k - 1 := by
    by_cases hk : k - 1 = 0
    · exact ⟨1, by omega, by omega⟩
    · exact ⟨0, by omega, by omega⟩
  obtain ⟨byte, hbyte, hpoint⟩ := Option.map_eq_some_iff.1 (h.point (k - 1) h.inside)
  obtain ⟨byte', hbyte', hpoint'⟩ := Option.map_eq_some_iff.1 (h.point i hi)
  refine ⟨byte, List.mem_of_getElem? hbyte, byte', List.mem_of_getElem? hbyte', ?_⟩
  rintro rfl
  rw [hpoint'] at hpoint
  simp [hik] at hpoint

/-- **On two places or more no value arrives**: of all that `display` is given, only the error frame
of a value that does not fit, with an exact `log10`, is at the outputs as it was sent. -/
theorem arrives_iff (miso : Chain → BitVec 8 → BitVec 8) (s : ShiftReg7Seg) {v : ℝ}
    (hd : 2 ≤ s.numberOfDisplay) (hd9 : s.numberOfDisplay ≤ 9)
    (hlen : s.chain.registers.length = s.numberOfDisplay) (h0 : 0 ≤ v)
    (hmax : v < 10 ^ (2 ^ 32 - 1)) :
    ∃ bytes returned s', frame s.numberOfDisplay v = some bytes ∧
      s.display miso v = some (returned, s') ∧
        (s'.chain.outputs = bytes ↔ 10 ^ s.numberOfDisplay ≤ v) := by
  have harrives {bytes : List (BitVec 8)} (hbytes : bytes.length = s.numberOfDisplay) :
      (s.displayDigits miso bytes).2.chain.outputs = bytes ↔
        ∀ byte ∈ bytes, ∀ byte' ∈ bytes, byte = byte' := by
    have hne : bytes ≠ [] := by
      rintro rfl
      simp at hbytes
      omega
    rw [ShiftReg7Seg.outputs_eq miso s hne (hlen.trans hbytes.symm)]
    exact ShiftChain.repeated_take_eq_iff le_rfl bytes
  rcases lt_or_ge v (10 ^ s.numberOfDisplay) with hv | hv
  · obtain ⟨k, x, bytes, -, hframe, hshows⟩ := shows_frame (by omega) hd9 h0 hv
    refine ⟨bytes, _, _, hframe, by rw [ShiftReg7Seg.display, hframe]; rfl, ?_⟩
    refine iff_of_false (fun hout => ?_) (not_le.2 hv)
    obtain ⟨byte, hbyte, byte', hbyte', hne⟩ := hshows.exists_ne hd
    exact hne ((harrives hshows.length).1 hout byte hbyte byte' hbyte')
  · have hframe := (error_frame_iff v (by omega)).2 ⟨hv, hmax⟩
    refine ⟨_, _, _, hframe, by rw [ShiftReg7Seg.display, hframe]; rfl, ?_⟩
    refine iff_of_true ((harrives List.length_replicate).2 fun byte hbyte byte' hbyte' => ?_) hv
    rw [List.eq_of_mem_replicate hbyte, List.eq_of_mem_replicate hbyte']

theorem arrives_iff_applies :
    let s : ShiftReg7Seg := ⟨4, 1, ⟨[1, 2, 3, 4], [5, 6, 7, 8]⟩⟩
    ∃ bytes returned s', frame 4 (25 / 2 : ℝ) = some bytes ∧
      s.display (fun _ _ => 0) (25 / 2 : ℝ) = some (returned, s') ∧
        (s'.chain.outputs = bytes ↔ 10 ^ 4 ≤ (25 / 2 : ℝ)) := by
  intro s
  have hsmall : (25 / 2 : ℝ) < 10 ^ 2 := by norm_num
  have hmax : (10 : ℝ) ^ 2 ≤ 10 ^ (2 ^ 32 - 1) := pow_le_pow_right₀ (by norm_num) (by omega)
  exact arrives_iff _ s (by decide) (by decide) rfl (by norm_num) (hsmall.trans_le hmax)

end NucleoMotor
