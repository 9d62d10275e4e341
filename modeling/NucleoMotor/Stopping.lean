import NucleoMotor.Output

/-!
# Stopping

A call of `stop` on a fresh sample takes `3` from `_compVolt` or clears it, whatever the speed, and
writes `_compVolt` as the duty.  After `n ≥ 1` of them `_compVolt` is at most
`max 0 (_compVolt - 3 n)` of its first value, and the duty is its saturation (`Braked`), so the
number of fresh calls of `stop` that bring the duty to `0` depends on that first value alone.
-/

namespace NucleoMotor

open MotorControl Runs Saturation

namespace Drive

/-- A call of `stop` that finds a fresh sample. -/
def FreshStop (d : Drive ℚ) (e : Event ℚ) : Prop := e = .call .stop ∧ d.Fresh

instance (d : Drive ℚ) (e : Event ℚ) : Decidable (d.FreshStop e) :=
  inferInstanceAs (Decidable (_ ∧ _))

/-- A sample or a call of `stop`. -/
def Stopping (_ : Drive ℚ) : Event ℚ → Prop
  | .sample _ _ => True
  | .call (.run _) => False
  | .call .stop => True

instance (d : Drive ℚ) : ∀ e, Decidable (d.Stopping e)
  | .sample _ _ => inferInstanceAs (Decidable True)
  | .call (.run _) => inferInstanceAs (Decidable False)
  | .call .stop => inferInstanceAs (Decidable True)

/-- The control state after `n` fresh calls of `stop` from the output `c`. -/
structure Braked (c : ℚ) (n : ℕ) (d : Drive ℚ) : Prop where
  out : d.motor.compVolt ≤ max 0 (c - 3 * n)
  duty : 0 < n → d.motor.motorEnable = unit d.motor.compVolt

theorem braked_zero (d : Drive ℚ) : Braked d.motor.compVolt 0 d :=
  ⟨by simp, fun h => absurd h (lt_irrefl 0)⟩

theorem Braked.step {c : ℚ} {n : ℕ} {d : Drive ℚ} (h : Braked c n d) {e : Event ℚ}
    (he : d.Stopping e) : Braked c (n + if d.FreshStop e then 1 else 0) (d.step e) := by
  match e with
  | .sample speed time =>
    rw [if_neg (by rintro ⟨h, -⟩; cases h)]
    exact ⟨h.out, h.duty⟩
  | .call .stop =>
    by_cases hf : d.Fresh
    · rw [if_pos ⟨rfl, hf⟩]
      have hcore := step_call_core_fresh hf .stop
      have hout : (d.step (.call .stop)).motor.compVolt =
          if 3 < percent d.data.1 then d.motor.compVolt - 3 else 0 := congrArg Core.compVolt hcore
      have hduty : (d.step (.call .stop)).motor.motorEnable =
          unit (d.motor.core.apply d.data .stop).compVolt :=
        (congrArg Core.motorEnable hcore).trans (Core.apply_stop_duty _ _)
      constructor
      · rw [hout]
        split_ifs with h3
        · -- the decrement, from a value that may be negative already
          push_cast
          rcases le_max_iff.1 h.out with h0 | h0
          · exact le_max_of_le_left (by linarith)
          · exact le_max_of_le_right (by linarith)
        · exact le_max_left _ _
      · intro _
        rw [hduty, hout]
        rfl
    · rw [if_neg (fun h => hf h.2)]
      have hcore := step_call_core_stale hf .stop
      have hout : (d.step (.call .stop)).motor.compVolt = d.motor.compVolt :=
        congrArg Core.compVolt hcore
      have hduty : (d.step (.call .stop)).motor.motorEnable = d.motor.motorEnable :=
        congrArg Core.motorEnable hcore
      exact ⟨hout ▸ h.out, fun hn => by rw [hduty, hout, h.duty hn]⟩

/-- After `n ≥ 1` fresh calls with `3 n ≥ _compVolt` the motor has no power. -/
theorem Braked.duty_eq_zero {c : ℚ} {n : ℕ} {d : Drive ℚ} (h : Braked c n d) (hn : 0 < n)
    (hc : c ≤ 3 * n) : d.motor.motorEnable = 0 := by
  have hout := h.out
  rw [max_eq_left (by linarith)] at hout
  rw [h.duty hn]
  exact unit_of_nonpos hout

/-- **`stop` takes the power off within 34 samples**: from any state reached from construction,
once `max 1 ⌈_compVolt / 3⌉` calls of `stop`, or `34`, have found a fresh sample of any speed, the
duty is `0`, and further samples and calls of `stop` leave it so. -/
theorem stop_takes_power_off (Kp Ki : ℚ) (ratedRPM : ℕ) (data : SpeedData ℚ)
    (es ss more : List (Event ℚ)) :
    let d := exec step (start Kp Ki ratedRPM data) es
    AllSteps step Stopping d (ss ++ more) →
      (max 1 ⌈d.motor.compVolt / 3⌉ ≤ count step FreshStop d ss →
        (exec step d (ss ++ more)).motor.motorEnable = 0) ∧
      (34 ≤ count step FreshStop d ss → (exec step d (ss ++ more)).motor.motorEnable = 0) := by
  intro d hss
  have hbraked : Braked d.motor.compVolt (0 + count step FreshStop d (ss ++ more))
      (exec step d (ss ++ more)) :=
    hss.count_invariant (braked_zero d) fun n t e ht he => ht.step he
  rw [zero_add] at hbraked
  have hcount : count step FreshStop d (ss ++ more) = count step FreshStop d ss +
      count step FreshStop (exec step d ss) more := count_append d ss more
  constructor
  · intro h
    obtain ⟨h1, hceil⟩ := max_le_iff.1 h
    refine hbraked.duty_eq_zero (by omega) ?_
    have hle : d.motor.compVolt / 3 ≤ count step FreshStop d ss := by
      exact_mod_cast Int.ceil_le.1 hceil
    have hmono : (count step FreshStop d ss : ℚ) ≤ count step FreshStop d (ss ++ more) := by
      exact_mod_cast (by omega)
    linarith
  · intro h
    refine hbraked.duty_eq_zero (by omega) ?_
    have hle : d.motor.compVolt ≤ 100 := (bounded_run Kp Ki ratedRPM data es).le
    have hmono : (34 : ℚ) ≤ count step FreshStop d (ss ++ more) := by
      exact_mod_cast (by omega : 34 ≤ count step FreshStop d (ss ++ more))
    linarith

/-- From `_compVolt = 20`, at rated speed: seven calls are enough, and so are 34. -/
theorem stop_takes_power_off_applies :
    let d := exec step (start (4 : ℚ) 0 24 (0, 0)) [.sample 0 100000, .call (.run 1)]
    let stops (n : ℕ) : List (Event ℚ) :=
      (List.range n).flatMap fun k => [.sample 24 (200000 + k), .call .stop]
    0 < d.motor.motorEnable ∧
      (exec step d (stops 7 ++ [.call .stop])).motor.motorEnable = 0 ∧
      (exec step d (stops 34 ++ [.call .stop])).motor.motorEnable = 0 := by
  intro d stops
  refine ⟨by decide +kernel, ?_, ?_⟩
  · exact (stop_takes_power_off 4 0 24 (0, 0) [.sample 0 100000, .call (.run 1)] (stops 7)
      [.call .stop] (by decide +kernel)).1 (by decide +kernel)
  · exact (stop_takes_power_off 4 0 24 (0, 0) [.sample 0 100000, .call (.run 1)] (stops 34)
      [.call .stop] (by decide +kernel)).2 (by decide +kernel)

end Drive

end NucleoMotor
