import NucleoMotor.Beats

/-!
# The control law in closed form

`PIcontrol` integrates the error, and `run` adds the PI signal to `_compVolt`, which so integrates
once more: from construction `_compVolt` is a double sum over the errors (`closed_form`), up to the
ceiling at `100`.
-/

namespace NucleoMotor

open MotorControl Runs Saturation Regulator Finset

namespace MotorControl

/-- **The closed form of the control law**: after `n` calls of `run`, each on a fresh sample, of
which none brings the sum above `100`. -/
theorem closed_form (Kp Ki : ℚ) (ratedRPM : ℕ) (speed : ℚ) (b : ℕ → Beat) (n : ℕ)
    (hgap : ∀ i, i < n → (b i).gap < 2 ^ 32)
    (hsum : ∀ k, k ≤ n → ∑ i ∈ range k, (Kp * (b i).error +
      Ki * ∑ j ∈ range (i + 1), (b j).error * (b j).gap / 1000000) ≤ 100) :
    let m := (construct Kp Ki ratedRPM (speed, 0)).after b n
    let sum := ∑ i ∈ range n, (Kp * (b i).error +
      Ki * ∑ j ∈ range (i + 1), (b j).error * (b j).gap / 1000000)
    m.compVolt = sum ∧ m.motorEnable = unit (sum / 100) := by
  intro m sum
  have hlaw (k : ℕ) (hk : k ≤ n) :
      law ⟨Kp, Ki, 100⟩ ⟨0, 0⟩ (fun i => (b i).error) (fun i => seconds (b i).gap) k =
        ∑ i ∈ range k, (Kp * (b i).error +
          Ki * ∑ j ∈ range (i + 1), (b j).error * (b j).gap / 1000000) := by
    simp only [law, zero_add]
    refine sum_congr rfl fun i hi => ?_
    have hinner : ∑ j ∈ range (i + 1), (b j).error * seconds (b j).gap =
        ∑ j ∈ range (i + 1), (b j).error * (b j).gap / 1000000 := by
      refine sum_congr rfl fun j hj => ?_
      rw [mem_range] at hi hj
      have hlt : ((b j).gap : ℤ) < 2 ^ 32 := by exact_mod_cast hgap j (by omega)
      rw [seconds_of_lt (by omega) hlt, Int.cast_natCast, mul_div_assoc]
    rw [hinner]
  have hout : m.compVolt = sum := by
    -- before the first sample the constructor's `stop` does not act
    have hstart : (construct Kp Ki ratedRPM (speed, 0)).compVolt = 0 := by
      refine (construct_compVolt Kp Ki ratedRPM (speed, 0)).trans ?_
      simp
    have hfollow := construct_after_compVolt Kp Ki ratedRPM (speed, 0) b n
    rw [hstart, follow_out fun k hk => (hlaw k hk).trans_le (hsum k hk)] at hfollow
    exact hfollow.trans (hlaw n le_rfl)
  refine ⟨hout, ?_⟩
  rw [← hout]
  exact construct_after_duty Kp Ki ratedRPM (speed, 0) b n

/-- A stalled motor at full reference, for three samples. -/
theorem closed_form_applies :
    let b : ℕ → Beat := fun _ => ⟨1, 0, 100000, by decide⟩
    ((construct (4 / 25 : ℚ) (1 / 100) 24 (0, 0)).after b 3).compVolt = 243 / 100 ∧
      ((construct (4 / 25 : ℚ) (1 / 100) 24 (0, 0)).after b 3).motorEnable = 243 / 10000 := by
  intro b
  obtain ⟨hout, hduty⟩ := closed_form (4 / 25) (1 / 100) 24 0 b 3 (by decide +kernel)
    (by decide +kernel)
  rw [hout, hduty]
  decide +kernel

end MotorControl

end NucleoMotor
