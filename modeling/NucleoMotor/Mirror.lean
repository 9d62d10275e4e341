import NucleoMotor.Beats

/-!
# Reverse references

`run` takes the sign of the reference to the direction pins, and takes it once more into the error,
where the speed counts as positive in both directions.  A reverse reference so never gives a
positive error, the duty of a run with reverse references stays `0` (`reversed_duty`), and it
mirrors the forward run exactly where that run is never powered (`mirrored_iff`).
-/

namespace NucleoMotor

open MotorControl Runs Saturation Regulator Finset

/-- The beat with the reference in the other direction. -/
def Beat.reversed (b : Beat) : Beat := { b with refVolt := -b.refVolt }

theorem Beat.reversed_error_nonpos {b : Beat} (hs : 0 ≤ b.speed) (hr : 0 < b.refVolt) :
    b.reversed.error ≤ 0 := by
  have hneg : refError (-b.refVolt) b.speed ≤ 0 := by
    rw [refError_rat, percent]
    linarith
  have hzero : adjustError (0 : ℚ) = 0 := by
    rw [adjustError_rat]
    norm_num [shape]
  rw [Beat.error]
  exact (adjustError_mono hneg).trans_eq hzero

namespace MotorControl

/-- The reverse run has the duty of the forward run, and the opposite pins where it drives. -/
structure Mirrored (forward reverse : MotorControl ℚ) : Prop where
  duty : reverse.motorEnable = forward.motorEnable
  pins : 0 < reverse.motorEnable → reverse.pins = forward.pins.swap

section

variable {Kp Ki : ℚ} (hp : 0 ≤ Kp) (hi : 0 ≤ Ki) (ratedRPM : ℕ) (data : SpeedData ℚ)
  {b : ℕ → Beat} (hs : ∀ i, 0 ≤ (b i).speed) (hr : ∀ i, 0 < (b i).refVolt)

include hp hi hs hr in
/-- Reverse references never drive the motor. -/
theorem reversed_duty (k : ℕ) :
    ((construct Kp Ki ratedRPM data).after (fun i => (b i).reversed) k).motorEnable = 0 := by
  have hstart : (construct Kp Ki ratedRPM data).compVolt ≤ 0 :=
    construct_compVolt_nonpos Kp Ki ratedRPM data
  have hout : (follow ⟨Kp, Ki, 100⟩ ⟨(construct Kp Ki ratedRPM data).compVolt, 0⟩
      (fun i => (b i).reversed.error) (fun i => seconds (b i).reversed.gap) k).out ≤ 0 :=
    (follow_nonpos hp hi (fun _ => seconds_nonneg _) hstart le_rfl
      (fun i => Beat.reversed_error_nonpos (hs i) (hr i)) k).1
  rw [← construct_after_compVolt] at hout
  rw [construct_after_duty, unit_eq_zero_iff]
  linarith

end

/-- **Exactly when reverse references mirror forward ones**: when the PI sum of the forward
references never becomes positive, so that neither run drives the motor at all. -/
theorem mirrored_iff {Kp Ki : ℚ} (hp : 0 ≤ Kp) (hi : 0 ≤ Ki) (ratedRPM : ℕ) (data : SpeedData ℚ)
    (b : ℕ → Beat) (hs : ∀ i, 0 ≤ (b i).speed) (hr : ∀ i, 0 < (b i).refVolt) (n : ℕ) :
    let m := construct Kp Ki ratedRPM data
    (∀ k, k ≤ n → Mirrored (m.after b k) (m.after (fun i => (b i).reversed) k)) ↔
      ∀ k, k ≤ n → m.compVolt + ∑ i ∈ range k, (Kp * (b i).error +
        Ki * ∑ j ∈ range (i + 1), (b j).error * seconds (b j).gap) ≤ 0 := by
  intro m
  have hreverse := reversed_duty hp hi ratedRPM data hs hr
  have hmirrored (k : ℕ) : Mirrored (m.after b k) (m.after (fun i => (b i).reversed) k) ↔
      (m.after b k).compVolt ≤ 0 := by
    have hforward : (m.after b k).motorEnable = 0 ↔ (m.after b k).compVolt ≤ 0 := by
      rw [construct_after_duty, unit_eq_zero_iff]
      constructor <;> intro h <;> linarith
    rw [← hforward]
    constructor
    · rintro ⟨hduty, -⟩
      exact hduty.symm.trans (hreverse k)
    · intro h
      exact ⟨(hreverse k).trans h.symm, fun hpos => absurd hpos (hreverse k).not_gt⟩
  have hout (k : ℕ) := construct_after_compVolt Kp Ki ratedRPM data b k
  simp only [hmirrored, m, hout]
  rw [follow_le_iff (by norm_num)]
  simp only [law, zero_add]

/-- A motor that is turned from outside, faster than its reference: no run is powered. -/
theorem mirrored_iff_applies :
    let m := construct (4 / 25 : ℚ) (1 / 100) 24 (0, 0)
    let b : ℕ → Beat := fun _ => ⟨1 / 2, 24, 100000, by decide⟩
    ∀ k, k ≤ 2 → Mirrored (m.after b k) (m.after (fun i => (b i).reversed) k) := by
  intro m b
  exact (mirrored_iff (by norm_num) (by norm_num) 24 (0, 0) b (fun i => by norm_num [b])
    (fun i => by norm_num [b]) 2).2 (by decide +kernel)

/-- A motor at rest: after one call the forward run has the duty `161 / 20000`, the reverse run
`0`. -/
theorem reverse_unpowered :
    let m := construct (4 / 25 : ℚ) (1 / 100) 24 (0, 0)
    let b : ℕ → Beat := fun _ => ⟨1 / 2, 0, 100000, by decide⟩
    ¬ ∀ k, k ≤ 1 → Mirrored (m.after b k) (m.after (fun i => (b i).reversed) k) := by
  intro m b h
  exact absurd (h 1 le_rfl).duty (by decide +kernel)

end MotorControl

end NucleoMotor
