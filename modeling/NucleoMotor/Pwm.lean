import NucleoMotor.Lib.Fallible
import NucleoMotor.Lib.Rounding
import NucleoMotor.Exact

/-!
# The PWM hardware

`mbed-os/targets/TARGET_STM/pwmout_api.c` below `PwmOut`, with the registers of the timer: it counts
from `0` to `ARR`, each step `PSC + 1` cycles of its clock, and the output is high while it is below
`CCR`.

* A period is kept in microseconds, with a prescaler that makes it fit into 16 bits.
* Duty cycles are numbers of the type `float`: every product and every quotient is rounded to 24
  binary digits.  Up to `2 ^ 24` µs a period has an exact `float`.
* `pulse` is cut off to whole microseconds, and `CCR` to whole steps.
-/

namespace NucleoMotor

open Rounding Saturation

/-- `pwmout_t`, with the registers of its timer. -/
structure Pwm where
  period : ℕ
  pulse : ℕ
  prescaler : ℕ
  PSC : ℕ
  ARR : ℕ
  CCR : ℕ
  deriving DecidableEq, Repr

namespace Pwm

/-- The nearest `float`.  Numbers that are too small to have 24 digits there come to no microsecond
anyway. -/
def float (x : ℚ) : ℚ := rounded 24 x

/-- `pwmout_write`. -/
def write (o : Pwm) (value : ℚ) : Pwm :=
  let value := PwmOut.write value
  let pulse := unsignedLong ⌊float (float o.period * value)⌋
  { o with pulse := pulse, CCR := pulse / o.prescaler }

/-- `pwmout_read`. -/
def read (o : Pwm) : ℚ :=
  let value : ℚ := if o.period > 0 then float (float o.pulse / float o.period) else 0
  if value > 1 then 1 else value

/-- `TimHandle.Init.Prescaler`, for a timer clock of so many megahertz. -/
def Prescaler (mhz prescaler : ℕ) : ℕ := unsignedLong ((mhz * prescaler : ℕ) - 1)

/-- `TimHandle.Init.Period`. -/
def Period (us : ℤ) (prescaler : ℕ) : ℕ := unsignedLong (us - 1) / prescaler

/-- The loop of `pwmout_period_us`: the prescaler with which it ends, unless it calls `error`. -/
def fit (mhz : ℕ) (us : ℤ) : ℕ → ℕ → Option ℕ
  | 0, _ => none
  | fuel + 1, prescaler =>
    if Period us prescaler > 0xFFFF ∨ Prescaler mhz prescaler > 0xFFFF then
      let prescaler := prescaler * 2
      if Period us prescaler < 0xFFFF ∧ Prescaler mhz prescaler > 0xFFFF then none
      else fit mhz us fuel prescaler
    else some prescaler

/-- `pwmout_period_us`. -/
def period_us (mhz : ℕ) (o : Pwm) (us : ℤ) : Option Pwm := do
  let dc := o.read
  let prescaler ← fit mhz us 32 1
  let o := { o with
    prescaler := prescaler
    PSC := Prescaler mhz prescaler
    ARR := Period us prescaler
    period := unsignedLong us }
  some (o.write dc)

/-- `pwmout_pulsewidth_us`. -/
def pulsewidth_us (o : Pwm) (us : ℤ) : Pwm := o.write (float (float us / float o.period))

/-- `pwmout_init`. -/
def init (mhz : ℕ) : Option Pwm := period_us mhz ⟨0, 0, 1, 0, 0, 0⟩ 20000

inductive Call
  | write (value : ℚ)
  | period_us (us : ℤ)
  | pulsewidth_us (us : ℤ)
  deriving DecidableEq, Repr

def step (mhz : ℕ) (o : Pwm) : Call → Option Pwm
  | .write value => some (o.write value)
  | .period_us us => o.period_us mhz us
  | .pulsewidth_us us => some (o.pulsewidth_us us)

/-- A period that can be set with the prescaler `2 ^ j`, and that a `float` holds. -/
def Call.InRange (j : ℕ) : Call → Prop
  | .period_us us => 0 < us ∧ us ≤ 2 ^ (16 + j) ∧ us ≤ 2 ^ 24
  | _ => True

instance (j : ℕ) : ∀ c : Call, Decidable (c.InRange j)
  | .period_us us => inferInstanceAs (Decidable (0 < us ∧ us ≤ 2 ^ (16 + j) ∧ us ≤ 2 ^ 24))
  | .write _ => inferInstanceAs (Decidable True)
  | .pulsewidth_us _ => inferInstanceAs (Decidable True)

/-- The period after a call. -/
def Call.period (us : ℤ) : Call → ℤ
  | .period_us us' => us'
  | _ => us

/-- The period that was asked for last. -/
def lastPeriod (cs : List Call) : ℤ := cs.foldl Call.period 20000

theorem unsignedLong_sub_one {n : ℕ} (h0 : 0 < n) (h : n < 2 ^ 32) :
    unsignedLong ((n : ℤ) - 1) = n - 1 := by
  have := unsignedLong_of_lt (z := (n : ℤ) - 1) (by omega) (by omega)
  omega

theorem Prescaler_eq {mhz prescaler : ℕ} (h0 : 0 < mhz * prescaler)
    (h : mhz * prescaler ≤ 2 ^ 16) : Prescaler mhz prescaler = mhz * prescaler - 1 :=
  unsignedLong_sub_one h0 (by omega)

theorem Period_eq {us : ℕ} (h0 : 0 < us) (h : us < 2 ^ 31) (prescaler : ℕ) :
    Period us prescaler = (us - 1) / prescaler := by
  rw [Period, unsignedLong_sub_one h0 (by omega)]

/-- Where a power of two fits, the loop ends with one, and no larger one. -/
theorem exists_fit {mhz : ℕ} {us : ℤ} {fuel p i : ℕ} (hfuel : i < fuel)
    (hprescaler : ∀ i' ≤ i, Prescaler mhz (p * 2 ^ i') ≤ 0xFFFF)
    (hperiod : Period us (p * 2 ^ i) ≤ 0xFFFF) :
    ∃ i' ≤ i, fit mhz us fuel p = some (p * 2 ^ i') ∧ Period us (p * 2 ^ i') ≤ 0xFFFF := by
  induction fuel generalizing p i with
  | zero => omega
  | succ fuel ih =>
    have hdouble (i' : ℕ) : p * 2 * 2 ^ i' = p * 2 ^ (i' + 1) := by ring
    have hnow := hprescaler 0 (Nat.zero_le i)
    rw [pow_zero, mul_one] at hnow
    rw [fit]
    by_cases hout : Period us p > 0xFFFF
    · obtain ⟨i, rfl⟩ : ∃ i₀, i = i₀ + 1 := by
        refine ⟨i - 1, ?_⟩
        rcases Nat.eq_zero_or_pos i with rfl | hpos
        · rw [pow_zero, mul_one] at hperiod
          omega
        · omega
      -- the check in the loop passes, since the next prescaler fits
      have hnext := hprescaler 1 (by omega)
      rw [pow_one] at hnext
      rw [if_pos (Or.inl hout), if_neg (fun h => by omega)]
      obtain ⟨i', hi', hfit, hle⟩ := ih (p := p * 2) (i := i) (by omega)
        (fun i' hi' => by rw [hdouble]; exact hprescaler (i' + 1) (by omega))
        (by rwa [hdouble])
      rw [hdouble] at hfit hle
      exact ⟨i' + 1, by omega, hfit, hle⟩
    · refine ⟨0, Nat.zero_le i, ?_, ?_⟩
      · rw [if_neg (by omega), pow_zero, mul_one]
      · rw [pow_zero, mul_one]
        omega

/-- A period in range gets a prescaler with which the registers hold 16 bits. -/
theorem exists_prescaler {mhz j us : ℕ} (hmhz : 0 < mhz) (hj : mhz * 2 ^ j ≤ 2 ^ 16)
    (hpos : 0 < us) (hle : us ≤ 2 ^ (16 + j)) (hlt : us < 2 ^ 31) :
    ∃ prescaler, fit mhz us 32 1 = some prescaler ∧ 0 < prescaler ∧ mhz * prescaler ≤ 2 ^ 16 ∧
      Period us prescaler < 2 ^ 16 := by
  have hpow (i : ℕ) (hi : i ≤ j) : mhz * 2 ^ i ≤ 2 ^ 16 :=
    (Nat.mul_le_mul_left mhz (Nat.pow_le_pow_right (by norm_num) hi)).trans hj
  have hj32 : j < 32 := by
    have hone : 2 ^ j ≤ 2 ^ 16 := (Nat.le_mul_of_pos_left _ hmhz).trans hj
    have := (Nat.pow_le_pow_iff_right (by norm_num)).1 hone
    omega
  have hprescaler (i : ℕ) (hi : i ≤ j) : Prescaler mhz (1 * 2 ^ i) ≤ 0xFFFF := by
    have hle := hpow i hi
    rw [one_mul, Prescaler_eq (Nat.mul_pos hmhz (by positivity)) hle]
    omega
  have hperiod : Period us (1 * 2 ^ j) ≤ 0xFFFF := by
    rw [Period_eq hpos hlt, one_mul, ← Nat.lt_succ_iff, Nat.div_lt_iff_lt_mul (by positivity)]
    rw [pow_add] at hle
    omega
  obtain ⟨i, hi, hfit, hfits⟩ := exists_fit hj32 hprescaler hperiod
  rw [one_mul] at hfit hfits
  exact ⟨2 ^ i, hfit, by positivity, hpow i hi, by omega⟩

/-! ### Duty cycles -/

theorem float_natCast {n : ℕ} (h : n ≤ 2 ^ 24) : float n = n := rounded_natCast (by norm_num) h

@[simp] theorem float_one : float 1 = 1 := by
  simpa using float_natCast (n := 1) (by norm_num)

theorem float_nonneg {x : ℚ} (h : 0 ≤ x) : 0 ≤ float x := rounded_nonneg h

theorem float_mono {x y : ℚ} (h0 : 0 ≤ x) (h : x ≤ y) : float x ≤ float y :=
  rounded_mono (by norm_num) h0 h

/-- The pulse of a duty cycle is no longer than the period. -/
theorem write_pulse {o : Pwm} (h : o.period ≤ 2 ^ 24) (value : ℚ) :
    ((o.write value).pulse : ℤ) = ⌊float (o.period * PwmOut.write value)⌋ ∧
      (o.write value).pulse ≤ o.period := by
  have hmul : 0 ≤ (o.period : ℚ) * unit value := mul_nonneg (Nat.cast_nonneg _) (unit_nonneg value)
  have h0 : 0 ≤ ⌊float (o.period * unit value)⌋ := Int.floor_nonneg.2 (float_nonneg hmul)
  have hle : ⌊float (o.period * unit value)⌋ ≤ o.period := by
    have hfloat := float_mono hmul (mul_le_of_le_one_right (Nat.cast_nonneg _) (unit_le_one value))
    rw [float_natCast h] at hfloat
    exact_mod_cast (Int.floor_le_floor hfloat).trans_eq (Int.floor_natCast _)
  have hpulse : ((o.write value).pulse : ℤ) = ⌊float (o.period * unit value)⌋ := by
    rw [write, PwmOut.write_rat, float_natCast h]
    exact unsignedLong_of_lt h0 (by omega)
  rw [PwmOut.write_rat]
  exact ⟨hpulse, by omega⟩

theorem read_of_le {o : Pwm} (h0 : 0 < o.period) (h : o.period ≤ 2 ^ 24) (hle : o.pulse ≤ o.period) :
    o.read = float (o.pulse / o.period) := by
  have hpos : (0 : ℚ) < o.period := by exact_mod_cast h0
  have hquot : (o.pulse : ℚ) / o.period ≤ 1 := by
    rw [div_le_one hpos]
    exact_mod_cast hle
  have hfloat : float ((o.pulse : ℚ) / o.period) ≤ 1 :=
    (float_mono (by positivity) hquot).trans_eq float_one
  unfold read
  dsimp only
  rw [if_pos h0, float_natCast (hle.trans h), float_natCast h, if_neg (not_lt.2 hfloat)]

theorem read_mem (o : Pwm) : 0 ≤ o.read ∧ o.read ≤ 1 := by
  unfold read
  dsimp only
  split_ifs with hpos h1 h1
  · exact ⟨zero_le_one, le_rfl⟩
  · refine ⟨float_nonneg (div_nonneg (float_nonneg ?_) (float_nonneg ?_)), not_lt.1 h1⟩ <;>
      positivity
  · exact ⟨zero_le_one, le_rfl⟩
  · exact ⟨le_rfl, zero_le_one⟩

/-- A duty cycle is kept cut off to whole microseconds, with two roundings. -/
theorem read_write {o : Pwm} (h0 : 0 < o.period) (h : o.period ≤ 2 ^ 24) (value : ℚ) :
    (o.write value).read ≤ unit value * (1 + 1 / 2 ^ 24) ^ 2 ∧
      unit value * (1 - 1 / 2 ^ 24) ^ 2 < (o.write value).read + 1 / o.period := by
  obtain ⟨hpulse, hle⟩ := write_pulse h value
  rw [PwmOut.write_rat] at hpulse
  have hpos : (0 : ℚ) < o.period := by exact_mod_cast h0
  have hread : (o.write value).read = float ((o.write value).pulse / o.period) :=
    read_of_le (o := o.write value) h0 h hle
  have hmul : 0 ≤ (o.period : ℚ) * unit value := mul_nonneg hpos.le (unit_nonneg value)
  have hquot : (0 : ℚ) ≤ (o.write value).pulse / o.period := by positivity
  have hfloor := Int.floor_le (float (o.period * unit value))
  have hlt := Int.lt_floor_add_one (float (o.period * unit value))
  rw [← hpulse, Int.cast_natCast] at hfloor hlt
  have hproduct := rounded_le (p := 24) hmul
  have hproduct' := le_rounded (p := 24) hmul
  have hquotient := rounded_le (p := 24) hquot
  have hquotient' := le_rounded (p := 24) hquot
  rw [hread]
  unfold float at *
  constructor
  · have hpulse_le : ((o.write value).pulse : ℚ) / o.period ≤ unit value * (1 + 1 / 2 ^ 24) := by
      rw [div_le_iff₀ hpos]
      linarith
    calc rounded 24 (((o.write value).pulse : ℚ) / o.period)
        ≤ (o.write value).pulse / o.period * (1 + 1 / 2 ^ 24) := hquotient
      _ ≤ unit value * (1 + 1 / 2 ^ 24) * (1 + 1 / 2 ^ 24) := by gcongr
      _ = unit value * (1 + 1 / 2 ^ 24) ^ 2 := by ring
  · have hlt_pulse : unit value * (1 - 1 / 2 ^ 24) <
        (o.write value).pulse / o.period + 1 / o.period := by
      rw [← add_div, lt_div_iff₀ hpos]
      linarith
    have hshare : (0 : ℚ) ≤ 1 / o.period := by positivity
    have hfactor : (0 : ℚ) < 1 - 1 / 2 ^ 24 := by norm_num
    have hfactor1 : (1 : ℚ) - 1 / 2 ^ 24 ≤ 1 := by norm_num
    rw [pow_two, ← mul_assoc]
    refine (mul_lt_mul_of_pos_right hlt_pulse hfactor).trans_le ?_
    rw [add_mul]
    exact add_le_add hquotient' (mul_le_of_le_one_right hshare hfactor1)

/-- The registers belong to the period and the pulse, and fit into 16 bits. -/
structure Valid (mhz : ℕ) (o : Pwm) : Prop where
  period_pos : 0 < o.period
  period_le : o.period ≤ 2 ^ 24
  prescaler_pos : 0 < o.prescaler
  prescaler_le : mhz * o.prescaler ≤ 2 ^ 16
  PSC : o.PSC = mhz * o.prescaler - 1
  ARR : o.ARR = (o.period - 1) / o.prescaler
  ARR_lt : o.ARR < 2 ^ 16
  pulse_le : o.pulse ≤ o.period
  CCR : o.CCR = o.pulse / o.prescaler

variable {mhz j : ℕ} {o : Pwm}

theorem Valid.write (h : Valid mhz o) (value : ℚ) : Valid mhz (o.write value) :=
  ⟨h.period_pos, h.period_le, h.prescaler_pos, h.prescaler_le, h.PSC, h.ARR, h.ARR_lt,
    (write_pulse h.period_le value).2, rfl⟩

/-- Setting a period keeps the duty cycle as far as it can. -/
theorem exists_period_us (hmhz : 0 < mhz) (hj : mhz * 2 ^ j ≤ 2 ^ 16) (o : Pwm) {us : ℤ}
    (hus : (Call.period_us us).InRange j) : ∃ o', o.period_us mhz us = some o' ∧ Valid mhz o' ∧
      (o'.period : ℤ) = us ∧ o'.read ≤ o.read * (1 + 1 / 2 ^ 24) ^ 2 ∧
      o.read * (1 - 1 / 2 ^ 24) ^ 2 < o'.read + 1 / us := by
  obtain ⟨hpos, hle, hfloat⟩ := hus
  obtain ⟨us, rfl⟩ := Int.eq_ofNat_of_zero_le hpos.le
  have hpos : 0 < us := by exact_mod_cast hpos
  have hle : us ≤ 2 ^ (16 + j) := by exact_mod_cast hle
  have hfloat : us ≤ 2 ^ 24 := by exact_mod_cast hfloat
  have hlt : us < 2 ^ 31 := by omega
  obtain ⟨prescaler, hfit, hprescaler, hmul, hARR⟩ := exists_prescaler hmhz hj hpos hle hlt
  have hunsigned : unsignedLong us = us := by
    have := unsignedLong_of_lt (z := us) (by omega) (by omega)
    omega
  set o₁ : Pwm := { o with
    prescaler := prescaler
    PSC := Prescaler mhz prescaler
    ARR := Period us prescaler
    period := unsignedLong us }
  have hperiod₁ : o₁.period = us := hunsigned
  have hread := read_write (o := o₁) (by omega) (by omega) o.read
  rw [unit_of_mem o.read_mem.1 o.read_mem.2, hperiod₁] at hread
  have hvalid : Valid mhz (o₁.write o.read) :=
    { period_pos := hperiod₁ ▸ hpos
      period_le := hperiod₁ ▸ hfloat
      prescaler_pos := hprescaler
      prescaler_le := hmul
      PSC := Prescaler_eq (Nat.mul_pos hmhz hprescaler) hmul
      ARR := by
        show Period us prescaler = (unsignedLong us - 1) / prescaler
        rw [Period_eq hpos hlt, hunsigned]
      ARR_lt := hARR
      pulse_le := (write_pulse (by omega) _).2
      CCR := rfl }
  refine ⟨o₁.write o.read, by rw [period_us, hfit]; rfl, hvalid, ?_, hread.1, ?_⟩
  · show ((unsignedLong us : ℕ) : ℤ) = us
    rw [hunsigned]
  · rw [Int.cast_natCast]
    exact hread.2

/-! ### Runs -/

/-- A call in range goes through, and leaves the period that it asks for. -/
theorem exists_step (hmhz : 0 < mhz) (hj : mhz * 2 ^ j ≤ 2 ^ 16) (h : Valid mhz o) {c : Call}
    (hc : c.InRange j) :
    ∃ o', step mhz o c = some o' ∧ Valid mhz o' ∧ (o'.period : ℤ) = c.period o.period := by
  cases c with
  | write value => exact ⟨_, rfl, h.write value, rfl⟩
  | period_us us =>
    obtain ⟨o', hstep, hvalid, hperiod, -⟩ := exists_period_us hmhz hj o hc
    exact ⟨o', hstep, hvalid, hperiod⟩
  | pulsewidth_us us => exact ⟨_, rfl, h.write _, rfl⟩

theorem exists_calls (hmhz : 0 < mhz) (hj : mhz * 2 ^ j ≤ 2 ^ 16) (h : Valid mhz o)
    {cs : List Call} (hcs : ∀ c ∈ cs, c.InRange j) :
    ∃ o', Fallible.run (step mhz) o cs = some o' ∧ Valid mhz o' ∧
      (o'.period : ℤ) = cs.foldl Call.period o.period := by
  induction cs generalizing o with
  | nil => exact ⟨o, rfl, h, rfl⟩
  | cons c cs ih =>
    obtain ⟨hc, hcs⟩ := List.forall_mem_cons.1 hcs
    obtain ⟨o₁, hstep, hvalid, hperiod⟩ := exists_step hmhz hj h hc
    obtain ⟨o', hrun, hvalid', hperiod'⟩ := ih hvalid hcs
    refine ⟨o', ?_, hvalid', ?_⟩
    · rw [Fallible.run_cons, hstep]
      exact hrun
    · rw [List.foldl_cons, ← hperiod, hperiod']

/-- Calls in range go through. -/
theorem exists_run (hmhz : 0 < mhz) (hj : mhz * 2 ^ j ≤ 2 ^ 16) {cs : List Call}
    (hcs : ∀ c ∈ cs, c.InRange j) :
    ∃ o, ((init mhz).bind fun o => Fallible.run (step mhz) o cs) = some o ∧ Valid mhz o ∧
      (o.period : ℤ) = lastPeriod cs := by
  have hdefault : (Call.period_us 20000).InRange j := by
    refine ⟨by norm_num, ?_, by norm_num⟩
    have hone : (2 : ℤ) ^ 16 ≤ 2 ^ (16 + j) := pow_le_pow_right₀ (by norm_num) (by omega)
    omega
  obtain ⟨o₀, hinit, hvalid, hperiod, -⟩ := exists_period_us hmhz hj ⟨0, 0, 1, 0, 0, 0⟩ hdefault
  obtain ⟨o, hrun, hvalid', hperiod'⟩ := exists_calls hmhz hj hvalid hcs
  refine ⟨o, by rw [init, hinit, Option.bind_some, hrun], hvalid', ?_⟩
  rw [hperiod', hperiod, lastPeriod]

/-- Periods set one after the other, which each cut the duty cycle off again. -/
theorem exists_periods (hmhz : 0 < mhz) (hj : mhz * 2 ^ j ≤ 2 ^ 16) (o : Pwm) {uss : List ℤ}
    (huss : ∀ us ∈ uss, (Call.period_us us).InRange j) :
    ∃ o', Fallible.run (step mhz) o (uss.map .period_us) = some o' ∧
      o'.read ≤ o.read * (1 + 1 / 2 ^ 24) ^ (2 * uss.length) ∧
      o.read * (1 - 1 / 2 ^ 24) ^ (2 * uss.length) ≤
        o'.read + (uss.map fun us : ℤ => 1 / (us : ℚ)).sum := by
  induction uss generalizing o with
  | nil => exact ⟨o, rfl, by simp, by simp⟩
  | cons us uss ih =>
    obtain ⟨hus, huss⟩ := List.forall_mem_cons.1 huss
    obtain ⟨o₁, hstep, -, -, hle, hlt⟩ := exists_period_us hmhz hj o hus
    obtain ⟨o', hrun, hle', hge'⟩ := ih o₁ huss
    have hshare : 0 ≤ 1 / (us : ℚ) := by
      have := hus.1
      positivity
    have hlength : 2 * (us :: uss).length = 2 + 2 * uss.length := by
      rw [List.length_cons]
      ring
    rw [hlength, List.map_cons, List.map_cons, List.sum_cons]
    refine ⟨o', ?_, le_of_roundings hle hle', (lt_of_roundings (by norm_num) hshare hlt hge').le⟩
    rw [Fallible.run_cons, step, hstep]
    exact hrun

/-- With that period the output is low for one step of each round also at full duty. -/
example : ((init 80).bind fun o => Fallible.run (step 80) o [.period_us 99999, .write 1]).map
    (fun o => (o.ARR, o.CCR)) = some (49999, 49999) := by
  decide +kernel

/-- A width of 7 µs goes through a duty cycle just below `7 / 20000`. -/
example : ((init 80).bind fun o => Fallible.run (step 80) o [.pulsewidth_us 7]).map pulse =
    some 6 := by
  decide +kernel

/-- **The duty cycle drifts down only**, but for rounding: what is read after a `write` and any
periods set after it is at most the duty cycle written, and falls short of it by less than one
microsecond's share of each of the periods, with a factor of `1 ± 2 ^ (-24)` for each product and
each quotient. -/
theorem duty_of_run (hmhz : 0 < mhz) (hj : mhz * 2 ^ j ≤ 2 ^ 16) {cs : List Call}
    (hcs : ∀ c ∈ cs, c.InRange j) (value : ℚ) (uss : List ℤ)
    (huss : ∀ us ∈ uss, (Call.period_us us).InRange j) :
    ∃ o, ((init mhz).bind fun o => Fallible.run (step mhz) o
        (cs ++ .write value :: uss.map .period_us)) = some o ∧
      o.read ≤ PwmOut.write value * (1 + 1 / 2 ^ 24) ^ (2 * (uss.length + 1)) ∧
      PwmOut.write value * (1 - 1 / 2 ^ 24) ^ (2 * (uss.length + 1)) <
        o.read + (1 / (lastPeriod cs : ℚ) + (uss.map fun us : ℤ => 1 / (us : ℚ)).sum) := by
  obtain ⟨o₁, hrun₁, h, hperiod⟩ := exists_run hmhz hj hcs
  obtain ⟨o₀, hinit, hcalls⟩ := Option.bind_eq_some_iff.1 hrun₁
  obtain ⟨hle, hlt⟩ := read_write h.period_pos h.period_le value
  obtain ⟨o, hrun, hle', hge'⟩ := exists_periods hmhz hj (o₁.write value) huss
  have hshare : 0 ≤ 1 / (o₁.period : ℚ) := by positivity
  have hlength : 2 * (uss.length + 1) = 2 + 2 * uss.length := by ring
  rw [PwmOut.write_rat, ← hperiod, Int.cast_natCast, hlength]
  refine ⟨o, ?_, le_of_roundings hle hle', lt_of_roundings (by norm_num) hshare hlt hge'⟩
  rw [hinit, Option.bind_some, Fallible.run_append, hcalls]
  exact hrun

theorem duty_of_run_applies :
    ∃ o, ((init 80).bind fun o => Fallible.run (step 80) o
        ([.period_us 50] ++ .write (1 / 3) :: [100, 20000].map .period_us)) = some o ∧
      o.read ≤ PwmOut.write (1 / 3 : ℚ) * (1 + 1 / 2 ^ 24) ^ (2 * (2 + 1)) ∧
      PwmOut.write (1 / 3 : ℚ) * (1 - 1 / 2 ^ 24) ^ (2 * (2 + 1)) <
        o.read + (1 / (lastPeriod [.period_us 50] : ℚ) +
          ([100, 20000].map fun us : ℤ => 1 / (us : ℚ)).sum) :=
  duty_of_run (j := 1) (by decide) (by decide) (by decide) (1 / 3) [100, 20000] (by decide)

/-- A third of 20000 µs is read back as `0.33` once the period is 100 µs. -/
example : ((init 80).bind fun o =>
    Fallible.run (step 80) o [.write (float (1 / 3)), .period_us 100]).map read =
      some (float 0.33) := by
  decide +kernel

end Pwm

end NucleoMotor
