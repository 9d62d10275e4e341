import NucleoMotor.ShiftReg7Seg
import NucleoMotor.Lib.Digits

/-!
# The number on the display

`display` finds the number `k` of digits before the point (`numberOfDigits_le_iff`) and cuts every
digit out of the value on its own.  For a value below `10 ^ d`, at most nine digits, every
conversion is in range and the digits make up the value cut off after the last place
(`display_shows_value`).
-/

namespace NucleoMotor

open Digits

section Frame

variable {K : Type} [Field K] [LinearOrder K] [FloorRing K] [Log10 K]

/-! ### The number of digits -/

theorem castUnsigned_eq {z : ℤ} (h0 : 0 ≤ z) (h : z < 2 ^ 32) : castUnsigned z = some z.toNat :=
  if_pos ⟨h0, h⟩

omit [FloorRing K] [Log10 K] in
theorem orZero_nonneg (l : LogVal K) : 0 ≤ l.orZero := by
  cases l with
  | nan => exact le_rfl
  | negInf => exact le_rfl
  | fin x =>
    rw [LogVal.orZero]
    split_ifs with h
    · exact h
    · exact le_rfl

variable [IsStrictOrderedRing K]

/-- The number of digits is at most `n ≥ 1` exactly when the value is below `10 ^ n`. -/
theorem numberOfDigits_le_iff (v : K) {n : ℕ} (hn : 1 ≤ n) :
    ⌊(Log10.log10 v).orZero⌋ + 1 ≤ (n : ℤ) ↔ v < 10 ^ n := by
  have hone : (1 : K) ≤ 10 ^ n := one_le_pow₀ (by norm_num)
  have hn' : (1 : ℤ) ≤ n := by exact_mod_cast hn
  rcases lt_trichotomy v 0 with h | rfl | h
  · rw [Log10.log10_neg v h]
    simp only [LogVal.orZero, Int.floor_zero, zero_add]
    exact iff_of_true hn' (by linarith)
  · rw [Log10.log10_zero]
    simp only [LogVal.orZero, Int.floor_zero, zero_add]
    exact iff_of_true hn' (by linarith)
  · obtain ⟨x, hx, hfloor⟩ := Log10.log10_pos v h
    have hlog : v < 10 ^ n ↔ ⌊x⌋ < n := by
      have := Int.lt_zpow_iff_log_lt (b := 10) (by norm_num) (x := n) h
      rw [hfloor, ← this]
      simp
    rw [hx, hlog, LogVal.orZero]
    split_ifs with h0
    · omega
    · -- below one the logarithm is negative and replaced by `0`
      have hneg : ⌊x⌋ < 0 := Int.floor_lt.2 (by simpa using h0)
      simp only [Int.floor_zero]
      omega

/-- For a value that fits, `numberOfDigits` is the least `k ≥ 1` with `v < 10 ^ k`. -/
theorem exists_numberOfDigits {d : ℕ} (hd : 1 ≤ d) (hd32 : d < 2 ^ 32) {v : K}
    (hv : v < 10 ^ d) :
    ∃ k, numberOfDigits v = some k ∧ IsLeast {k : ℕ | 1 ≤ k ∧ v < 10 ^ k} k := by
  have hnonneg : 0 ≤ ⌊(Log10.log10 v).orZero⌋ := Int.floor_nonneg.2 (orZero_nonneg _)
  have hle := (numberOfDigits_le_iff v hd).2 hv
  obtain ⟨k, hk⟩ := Int.eq_ofNat_of_zero_le (show 0 ≤ ⌊(Log10.log10 v).orZero⌋ + 1 by omega)
  refine ⟨k, ?_, ⟨?_, ?_⟩, fun n hn => ?_⟩
  · rw [numberOfDigits, hk, castUnsigned_eq (by omega) (by omega)]
    simp
  · omega
  · exact (numberOfDigits_le_iff v (by omega)).1 hk.le
  · have := (numberOfDigits_le_iff v hn.1).2 hn.2
    omega

/-! ### The digits -/

theorem power_eq {i k : ℕ} (hi : i < 2 ^ 30) (hk : k < 2 ^ 30) : power i k = (i : ℤ) + 1 - k := by
  unfold power
  rw [Int.bmod_eq_of_le] <;> omega

omit [Log10 K] in
/-- Within nine digits the byte of index `i` shows the digit at the place `10 ^ (k - 1 - i)`. -/
theorem character_eq {v : K} {k i : ℕ} (h0 : 0 ≤ v) (hv : v < 10 ^ k) (hk : k ≤ 9) (hi : i < 9) :
    ∃ x : Fin 10, (x : ℤ) = digit 10 v ((i : ℤ) + 1 - k) ∧
      character v k i = some (characterMap x.castSucc) := by
  set y : K := v * 10 ^ ((i : ℤ) + 1 - k) with hy
  have hy0 : 0 ≤ ⌊y⌋ := Int.floor_nonneg.2 (by positivity)
  -- nine digits keep the conversion to `unsigned` in range
  have hy1 : ⌊y⌋ < 2 ^ 32 := by
    have hscale : y < 10 ^ (i + 1) := by
      calc y < 10 ^ k * 10 ^ ((i : ℤ) + 1 - k) := by
            rw [hy]
            exact mul_lt_mul_of_pos_right hv (by positivity)
        _ = 10 ^ (i + 1) := by
            rw [← zpow_natCast, ← zpow_natCast, ← zpow_add₀ (by norm_num)]
            congr 1
            push_cast
            ring
    have hpow : (10 : K) ^ (i + 1) ≤ 10 ^ 9 := pow_le_pow_right₀ (by norm_num) (by omega)
    refine Int.floor_lt.2 ?_
    push_cast
    linarith [show (10 : K) ^ 9 < 2 ^ 32 by norm_num]
  refine ⟨⟨⌊y⌋.toNat % 10, Nat.mod_lt _ (by norm_num)⟩, ?_, ?_⟩
  · rw [digit, Nat.cast_ofNat, ← hy]
    push_cast
    omega
  · rw [character, power_eq (by omega) (by omega), ← hy, castUnsigned_eq hy0 hy1]
    refine congrArg (fun j => some (characterMap j)) (Fin.ext ?_)
    show ⌊y⌋.toNat % 10 % 11 = ⌊y⌋.toNat % 10
    omega

/-! ### The frame -/

/-- A loop that sets every entry of an array. -/
theorem foldlM_set {β : Type} {d : ℕ} {z : β} {f : ℕ → Option β} {b : ℕ → β}
    (h : ∀ i < d, f i = some (b i)) {m : ℕ} (hm : m ≤ d) :
    (List.range m).foldlM (fun l i => do
        let byte ← f i
        some (l.set i byte)) (List.replicate d z) =
      some ((List.range m).map b ++ List.replicate (d - m) z) := by
  induction m with
  | zero => simp
  | succ m ih =>
    have hlast : List.replicate (d - m) z = z :: List.replicate (d - (m + 1)) z := by
      rw [show d - m = d - (m + 1) + 1 by omega, List.replicate_succ]
    rw [List.range_succ, List.foldlM_append, ih (by omega), hlast]
    simp [h m (by omega)]

/-- The bytes `b 0, …, b (d - 1)` with the point set at index `k - 1`. -/
def pointed (d k : ℕ) (b : ℕ → BitVec 8) : List (BitVec 8) :=
  ((List.range d).map b).set (k - 1) (b (k - 1) ||| 0b00000001)

omit [IsStrictOrderedRing K] in
theorem frame_eq {v : K} {d k : ℕ} {b : ℕ → BitVec 8} (hk : numberOfDigits v = some k)
    (hk1 : 1 ≤ k) (hkd : k ≤ d) (hd : d < 2 ^ 32) (hb : ∀ i < d, character v k i = some (b i)) :
    frame d v = some (pointed d k b) := by
  have hloop := foldlM_set (z := 0) hb le_rfl
  have hlast : unsignedLong ((k : ℤ) - 1) = k - 1 := by
    have := unsignedLong_of_lt (z := (k : ℤ) - 1) (by omega) (by omega)
    omega
  have hget : ((List.range d).map b)[k - 1]? = some (b (k - 1)) := by
    simp [show k - 1 < d by omega]
  simp only [frame, hk, Option.bind_eq_bind, Option.bind_some, gt_iff_lt, not_lt.2 hkd, if_false]
  simp only [Option.bind_eq_bind] at hloop
  rw [hloop]
  simp [hlast, hget, pointed]

/-! ### What the display shows -/

def hasPoint (byte : BitVec 8) : Bool := byte.getLsbD 0

def clearPoint (byte : BitVec 8) : BitVec 8 := byte &&& 0b11111110

/-- The number with the digits `x`, `k` of them before the point. -/
def shown (K : Type) [Field K] (d k : ℕ) (x : ℕ → Fin 10) : K := value K 10 d k fun i => x i

/-- The bytes show `v`, cut off after `d` digits, with the point after the `k`-th one. -/
structure Shows (d : ℕ) (v : K) (k : ℕ) (x : ℕ → Fin 10) (bytes : List (BitVec 8)) : Prop where
  least : IsLeast {n : ℕ | 1 ≤ n ∧ v < 10 ^ n} k
  inside : k - 1 < d
  length : bytes.length = d
  point : ∀ i < d, bytes[i]?.map hasPoint = some (decide (i = k - 1))
  digits : ∀ i < d, ∀ y : Fin 10,
    bytes[i]?.map clearPoint = some (characterMap y.castSucc) ↔ y = x i
  le : shown K d k x ≤ v
  lt : v < shown K d k x + 10 ^ ((k : ℤ) - d)

theorem hasPoint_characterMap (y : Fin 10) :
    hasPoint (characterMap y.castSucc) = false ∧
      hasPoint (characterMap y.castSucc ||| 0b00000001) = true := by
  decide +revert

theorem clearPoint_characterMap (y : Fin 10) :
    clearPoint (characterMap y.castSucc) = characterMap y.castSucc ∧
      clearPoint (characterMap y.castSucc ||| 0b00000001) = characterMap y.castSucc := by
  decide +revert

theorem characterMap_inj (x y : Fin 10) :
    characterMap x.castSucc = characterMap y.castSucc ↔ x = y := by
  decide +revert

theorem pointed_getElem? {d k i : ℕ} (hi : i < d) (b : ℕ → BitVec 8) :
    (pointed d k b)[i]? = some (if i = k - 1 then b i ||| 0b00000001 else b i) := by
  unfold pointed
  split_ifs with h
  · subst h
    simp [hi]
  · rw [List.getElem?_set_ne (Ne.symm h)]
    simp [hi]

/-- The frame of a value that fits on nine digits shows it. -/
theorem shows_frame {d : ℕ} (hd : 1 ≤ d) (hd9 : d ≤ 9) {v : K} (h0 : 0 ≤ v) (hv : v < 10 ^ d) :
    ∃ k x bytes, numberOfDigits v = some k ∧ frame d v = some bytes ∧ Shows d v k x bytes := by
  obtain ⟨k, hk, hleast⟩ := exists_numberOfDigits hd (by omega) hv
  have hkd : k ≤ d := hleast.2 ⟨hd, hv⟩
  have hchar (i : ℕ) : ∃ x : Fin 10, i < d → (x : ℤ) = digit 10 v ((i : ℤ) + 1 - k) ∧
      character v k i = some (characterMap x.castSucc) := by
    by_cases hi : i < d
    · obtain ⟨x, hx⟩ := character_eq h0 hleast.1.2 (by omega) (show i < 9 by omega)
      exact ⟨x, fun _ => hx⟩
    · exact ⟨0, fun h => absurd h hi⟩
  choose x hx using hchar
  -- the digits are those of the truncation, so the bounds are its bounds
  have hshown : shown K d k x = truncated 10 v (-k + d) :=
    value_eq_truncated v (by norm_num) h0 (by simpa using hleast.1.2) fun i hi => (hx i hi).1
  refine ⟨k, x, pointed d k fun i => characterMap (x i).castSucc, hk, ?_, ?_⟩
  · exact frame_eq hk hleast.1.1 hkd (by omega) fun i hi => (hx i hi).2
  · have hk1 := hleast.1.1
    refine ⟨hleast, by omega, by simp [pointed], fun i hi => ?_, fun i hi y => ?_, ?_, ?_⟩
    · rw [pointed_getElem? hi, Option.map_some]
      have hbit := hasPoint_characterMap (x i)
      split_ifs with h
      · rw [hbit.2, decide_eq_true h]
      · rw [hbit.1, decide_eq_false h]
    · rw [pointed_getElem? hi, Option.map_some, Option.some_inj]
      have hclear := clearPoint_characterMap (x i)
      have hinj := characterMap_inj (x i) y
      split_ifs
      · rw [hclear.2, hinj, eq_comm]
      · rw [hclear.1, hinj, eq_comm]
    · rw [hshown]
      exact truncated_le v _ (by norm_num)
    · rw [hshown]
      have hlt := lt_truncated_add (b := 10) v (-k + d) (by norm_num)
      rwa [Nat.cast_ofNat, show -(-(k : ℤ) + d) = k - d by ring] at hlt

end Frame

/-- **The number on the display is the value**: on up to nine digits the frame of every real value
that fits has one byte a digit, with the point after the `k`-th one, and the number it shows is the
value cut off after the last place.  The index of the point is inside the array. -/
theorem display_shows_value {d : ℕ} (hd : 1 ≤ d) (hd9 : d ≤ 9) {v : ℝ} (h0 : 0 ≤ v)
    (hv : v < 10 ^ d) :
    ∃ k x bytes, numberOfDigits v = some k ∧ frame d v = some bytes ∧ Shows d v k x bytes :=
  shows_frame hd hd9 h0 hv

theorem display_shows_value_applies :
    ∃ k x bytes, numberOfDigits (25 / 2 : ℝ) = some k ∧ frame 4 (25 / 2 : ℝ) = some bytes ∧
      Shows 4 (25 / 2 : ℝ) k x bytes :=
  display_shows_value (by norm_num) (by norm_num) (by norm_num) (by norm_num)

example : frame 4 (25 / 2 : ℚ) = some [0b00001100, 0b10110111, 0b11011010, 0b01111110] := by
  decide +kernel

end NucleoMotor
