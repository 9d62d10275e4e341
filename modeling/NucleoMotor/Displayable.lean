import NucleoMotor.Display

/-!
# Which values the display can show

`display` takes a value for displayable when it has at most as many digits as there are places.
The count comes from `log10`, whose missing value for negative arguments is replaced by `0` as the
negative logarithms are: a negative value counts as one digit, and its first conversion to
`unsigned` is out of range.  For values that fit, the conversions are in range as long as the
number made of the digits shown is below `2 ^ 32`.

* `error_frame_iff`: when the error frame is shown.
* `casts_iff`: when all conversions of a value that fits are in range.
* `check_correct_iff`: exactly when the check does what it is for.
-/

namespace NucleoMotor

section Frame

variable {K : Type} [Field K] [LinearOrder K] [FloorRing K] [Log10 K]

/-! ### The error frame -/

/-- A frame of digits differs from the error frame in its point. -/
theorem frame_ne_error {v : K} {d k : ℕ} (hk : numberOfDigits v = some k) (hkd : k ≤ d) :
    frame d v ≠ some (List.replicate d (characterMap 10)) := by
  intro h
  simp only [frame, hk, Option.bind_eq_bind, Option.bind_some, gt_iff_lt, not_lt.2 hkd,
    if_false] at h
  obtain ⟨numArray, -, h⟩ := Option.bind_eq_some_iff.1 h
  obtain ⟨byte, hbyte, h⟩ := Option.bind_eq_some_iff.1 h
  obtain ⟨hlast, -⟩ := List.getElem?_eq_some_iff.1 hbyte
  have hmem : byte ||| 0b00000001 ∈ List.replicate d (characterMap 10) := by
    rw [← Option.some.inj h]
    exact List.mem_set hlast _
  have hpoint : ∀ byte : BitVec 8, byte ||| 0b00000001 ≠ characterMap 10 := by decide +kernel
  exact hpoint byte (List.eq_of_mem_replicate hmem)

theorem error_frame_iff_exceeds (v : K) (d : ℕ) :
    frame d v = some (List.replicate d (characterMap 10)) ↔
      ∃ k, numberOfDigits v = some k ∧ d < k := by
  cases hk : numberOfDigits v with
  | none => simp [frame, hk]
  | some k =>
    by_cases hkd : k ≤ d
    · refine iff_of_false (frame_ne_error hk hkd) ?_
      rintro ⟨k', hk', hlt⟩
      obtain rfl := Option.some.inj hk'
      omega
    · refine iff_of_true ?_ ⟨k, rfl, not_le.1 hkd⟩
      simp [frame, hk, not_le.1 hkd]

variable [IsStrictOrderedRing K]

/-- **When the error frame is shown**: for values that do not fit, as long as their number of
digits fits into an `unsigned`. -/
theorem error_frame_iff (v : K) {d : ℕ} (hd : 1 ≤ d) :
    frame d v = some (List.replicate d (characterMap 10)) ↔
      10 ^ d ≤ v ∧ v < 10 ^ (2 ^ 32 - 1) := by
  have hnonneg : 0 ≤ ⌊(Log10.log10 v).orZero⌋ := Int.floor_nonneg.2 (orZero_nonneg _)
  have hfits := numberOfDigits_le_iff v hd
  have hmax := numberOfDigits_le_iff v (n := 2 ^ 32 - 1) (by omega)
  rw [error_frame_iff_exceeds, ← not_lt, ← hfits, ← hmax, numberOfDigits, castUnsigned]
  constructor
  · rintro ⟨k, hk, hlt⟩
    split_ifs at hk with h
    obtain rfl := Option.some.inj hk
    omega
  · rintro ⟨hlt, hle⟩
    refine ⟨_, if_pos (by omega), by omega⟩

/-! ### The conversions -/

/-- The largest power by which the loop scales. -/
theorem power_le {d k i : ℕ} (hd : d < 2 ^ 32) (hk : k ≤ 10) (hkd : k ≤ d) (hi : i < d) :
    power i k ≤ (min (d - k) (2 ^ 31 - 1) : ℕ) := by
  unfold power
  rcases lt_or_ge ((i : ℤ) + 1 - k) (2 ^ 31) with h | h
  · rw [Int.bmod_eq_of_le] <;> omega
  · -- past `2 ^ 31` the `int` is negative
    rw [Int.bmod_def]
    split_ifs <;> omega

theorem power_attained {d k : ℕ} (hd : d < 2 ^ 32) (hk : 1 ≤ k) (hkd : k ≤ d) :
    ∃ i, i < d ∧ power i k = (min (d - k) (2 ^ 31 - 1) : ℕ) := by
  refine ⟨k - 1 + min (d - k) (2 ^ 31 - 1), by omega, ?_⟩
  unfold power
  rw [Int.bmod_eq_of_le] <;> omega

omit [Log10 K] [IsStrictOrderedRing K] in
/-- A character is found when the scaled value is in range of the conversion. -/
theorem character_isSome_iff {v : K} {k i : ℕ} : (character v k i).isSome ↔
    0 ≤ ⌊v * 10 ^ power i k⌋ ∧ ⌊v * 10 ^ power i k⌋ < 2 ^ 32 := by
  simp only [character, castUnsigned]
  split_ifs with h
  · exact iff_of_true rfl h
  · exact iff_of_false Bool.false_ne_true h

omit [Log10 K] in
/-- **When the conversions are in range**, for a value with `k` digits that fits. -/
theorem casts_iff {v : K} {d k : ℕ} (hd : d < 2 ^ 32) (hkd : k ≤ d) (h0 : 0 ≤ v)
    (hk : IsLeast {n : ℕ | 1 ≤ n ∧ v < 10 ^ n} k) :
    (∀ i, i < d → (character v k i).isSome) ↔
      v * 10 ^ min (d - k) (2 ^ 31 - 1) < 2 ^ 32 := by
  simp only [character_isSome_iff]
  have hfloor (x : K) : ⌊x⌋ < 2 ^ 32 ↔ x < 2 ^ 32 := by
    rw [Int.floor_lt]
    norm_cast
  constructor
  · intro h
    obtain ⟨i, hi, hpow⟩ := power_attained hd hk.1.1 hkd
    have hlt := (hfloor _).1 (h i hi).2
    rwa [hpow, zpow_natCast] at hlt
  · intro h i hi
    have hscale : (1 : K) ≤ 10 ^ min (d - k) (2 ^ 31 - 1) := one_le_pow₀ (by norm_num)
    -- a value below `2 ^ 32` has at most ten digits
    have hk10 : k ≤ 10 := by
      refine hk.2 ⟨by norm_num, ?_⟩
      have hle : v ≤ v * 10 ^ min (d - k) (2 ^ 31 - 1) := le_mul_of_one_le_right h0 hscale
      exact (hle.trans_lt h).trans (by norm_num)
    refine ⟨Int.floor_nonneg.2 (by positivity), (hfloor _).2 (lt_of_le_of_lt ?_ h)⟩
    rw [← zpow_natCast]
    exact mul_le_mul_of_nonneg_left
      (zpow_le_zpow_right₀ (by norm_num) (power_le hd hk10 hkd hi)) h0

/-! ### The check -/

/-- What the check of `display` is for: the error frame is shown exactly for the values that are
negative or do not fit, and for the others every conversion is in range. -/
structure CheckCorrect (d : ℕ) (v : K) : Prop where
  error_iff : frame d v = some (List.replicate d (characterMap 10)) ↔ v < 0 ∨ 10 ^ d ≤ v
  casts : 0 ≤ v → v < 10 ^ d → ∀ k, numberOfDigits v = some k → ∀ i, i < d →
    (character v k i).isSome

theorem check_correct_iff_inRange {d : ℕ} (hd : 1 ≤ d) (hd32 : d < 2 ^ 32) (v : K) :
    CheckCorrect d v ↔ 0 ≤ v ∧ (10 ^ d ≤ v → v < 10 ^ (2 ^ 32 - 1)) ∧
      (v < 10 ^ d → ∃ k, IsLeast {n : ℕ | 1 ≤ n ∧ v < 10 ^ n} k ∧
        v * 10 ^ min (d - k) (2 ^ 31 - 1) < 2 ^ 32) := by
  have hpos : (0 : K) < 10 ^ d := by positivity
  constructor
  · rintro ⟨herror, hcasts⟩
    rw [error_frame_iff v hd] at herror
    have h0 : 0 ≤ v := by
      by_contra hneg
      have hbig := (herror.2 (.inl (not_le.1 hneg))).1
      linarith
    refine ⟨h0, fun hbig => (herror.2 (.inr hbig)).2, fun hv => ?_⟩
    obtain ⟨k, hk, hleast⟩ := exists_numberOfDigits hd hd32 hv
    exact ⟨k, hleast, (casts_iff hd32 (hleast.2 ⟨hd, hv⟩) h0 hleast).1 (hcasts h0 hv k hk)⟩
  · rintro ⟨h0, hmax, hcasts⟩
    constructor
    · rw [error_frame_iff v hd]
      constructor
      · exact fun h => .inr h.1
      · rintro (hneg | hbig)
        · exact absurd h0 (not_le.2 hneg)
        · exact ⟨hbig, hmax hbig⟩
    · intro _ hv k hk
      obtain ⟨k', hk', hleast⟩ := exists_numberOfDigits hd hd32 hv
      obtain rfl : k = k' := Option.some.inj (hk.symm.trans hk')
      obtain ⟨k'', hleast', hlt⟩ := hcasts hv
      obtain rfl := hleast.unique hleast'
      exact (casts_iff hd32 (hleast.2 ⟨hd, hv⟩) h0 hleast).2 hlt

end Frame

/-- **Exactly when the check is right about a real value**: the value is not negative, its number
of digits fits into an `unsigned`, and if the value fits on the display, so does the number made of
the digits shown. -/
theorem check_correct_iff {d : ℕ} (hd : 1 ≤ d) (hd32 : d < 2 ^ 32) (v : ℝ) :
    CheckCorrect d v ↔ 0 ≤ v ∧ (10 ^ d ≤ v → v < 10 ^ (2 ^ 32 - 1)) ∧
      (v < 10 ^ d → ∃ k, IsLeast {n : ℕ | 1 ≤ n ∧ v < 10 ^ n} k ∧
        v * 10 ^ min (d - k) (2 ^ 31 - 1) < 2 ^ 32) :=
  check_correct_iff_inRange hd hd32 v

theorem check_correct_iff_applies : CheckCorrect 4 (25 / 2 : ℝ) := by
  refine (check_correct_iff (by norm_num) (by norm_num) (25 / 2)).2 ⟨by norm_num, ?_, ?_⟩
  · exact fun h => absurd h (by norm_num)
  · refine fun _ => ⟨2, ⟨⟨by norm_num, by norm_num⟩, ?_⟩, by norm_num⟩
    rintro n ⟨h1, hn⟩
    by_contra hlt
    obtain rfl : n = 1 := by omega
    norm_num at hn

/-- The value `-5` on four places: its first digit is converted from `-5`, and no error frame is
shown. -/
theorem negative_not_rejected : ¬ CheckCorrect 4 (-5 : ℝ) := by
  intro h
  have hframe := h.error_iff.2 (.inl (by norm_num))
  have hbig := ((error_frame_iff (-5 : ℝ) (by norm_num)).1 hframe).1
  norm_num at hbig

end NucleoMotor
