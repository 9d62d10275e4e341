import NucleoMotor.Drive

/-!
# The rated speed

The constructor stores its parameter `ratedRPM`, and no function reads it: `run` and `stop` divide
the measured speed by the default `24`.  So the parameter scales nothing (`rated_speed_iff`): for
any other rated speed there is a speed on different sides of the threshold of `stop`, taken as it
is and scaled.
-/

namespace NucleoMotor

open MotorControl Runs

/-- The event with its speed scaled by `24 / R`. -/
def Event.scaled (R : ℕ) : Event ℚ → Event ℚ
  | .sample speed time => .sample (speed * 24 / R) time
  | .call c => .call c

namespace Drive

/-- The outputs of the controller agree. -/
structure SameOutput (d e : Drive ℚ) : Prop where
  compVolt : d.motor.compVolt = e.motor.compVolt
  pins : d.motor.pins = e.motor.pins
  duty : d.motor.motorEnable = e.motor.motorEnable

/-- Throughout the run with the rated speed `R` the outputs are those of the run with the rated
speed `24` and the speeds scaled by `24 / R`. -/
def Scales (Kp Ki : ℚ) (R : ℕ) (data : SpeedData ℚ) (es : List (Event ℚ)) : Prop :=
  ∀ n, SameOutput (exec step (start Kp Ki R data) (es.take n))
    (exec step (start Kp Ki 24 (data.1 * 24 / R, data.2)) ((es.take n).map (Event.scaled R)))

/-- `stop` on the first sample takes `3` from the output where the speed is above 3 % of 24 rpm. -/
theorem stop_first_compVolt (Kp Ki : ℚ) (R : ℕ) (speed₀ speed : ℚ) :
    (exec step (start Kp Ki R (speed₀, 0)) [.sample speed 1, .call .stop]).motor.compVolt =
      if 3 < percent speed then -3 else 0 := by
  let d := (start Kp Ki R (speed₀, 0)).step (.sample speed 1)
  have hstart : d.motor.core.compVolt = 0 := by
    refine (construct_compVolt Kp Ki R (speed₀, 0)).trans ?_
    simp
  have hfresh : d.Fresh := by
    have hprev : d.motor.prevTime = 0 := construct_prevTime Kp Ki R le_rfl
    show d.motor.prevTime < 1
    omega
  refine (congrArg Core.compVolt (step_call_core_fresh hfresh .stop)).trans ?_
  rw [Core.apply_stop_compVolt, hstart, zero_sub]
  rfl

/-- A speed that is above 3 % of 24 rpm or of `R` rpm, but not of both. -/
theorem exists_threshold {R : ℕ} (hR : 0 < R) (h : R ≠ 24) :
    ∃ speed : ℚ, 0 < speed ∧ ¬ (3 < percent speed ↔ 3 < percent (speed * 24 / R)) := by
  have hR' : (0 : ℚ) < R := by exact_mod_cast hR
  have hscaled (s : ℚ) : percent (s * 24 / R) = s * 100 / R := by
    unfold percent
    field_simp
  rcases lt_or_gt_of_ne h with hlt | hgt
  · -- 3 % of 24 rpm is more than 3 % of `R`
    have hlt' : (R : ℚ) < 24 := by exact_mod_cast hlt
    refine ⟨18 / 25, by norm_num, ?_⟩
    rw [hscaled, percent]
    have hbig : 3 < (18 / 25 : ℚ) * 100 / R := by
      rw [lt_div_iff₀ hR']
      linarith
    simp only [hbig, iff_true]
    norm_num
  · have hgt' : (24 : ℚ) < R := by exact_mod_cast hgt
    refine ⟨3 * R / 100, by positivity, ?_⟩
    rw [hscaled, percent]
    have hsmall : ¬ 3 < 3 * (R : ℚ) / 100 * 100 / R := by
      rw [not_lt, div_le_iff₀ hR']
      linarith
    simp only [hsmall, iff_false, not_not]
    linarith

/-- A call that acts makes no difference between the speed and the scaled one. -/
def SeenAlike (R : ℕ) (d : Drive ℚ) : Event ℚ → Prop
  | .sample _ _ => True
  | .call (.run refVolt) => d.Fresh → adjustError (refError refVolt d.data.1) =
      adjustError (refError refVolt (d.data.1 * 24 / R))
  | .call .stop => d.Fresh → (3 < percent d.data.1 ↔ 3 < percent (d.data.1 * 24 / R))

instance (R : ℕ) (d : Drive ℚ) : ∀ e, Decidable (d.SeenAlike R e)
  | .sample _ _ => inferInstanceAs (Decidable True)
  | .call (.run refVolt) => inferInstanceAs (Decidable (d.Fresh → adjustError
      (refError refVolt d.data.1) = adjustError (refError refVolt (d.data.1 * 24 / R))))
  | .call .stop => inferInstanceAs (Decidable
      (d.Fresh → (3 < percent d.data.1 ↔ 3 < percent (d.data.1 * 24 / R))))

/-- The state of the scaled run. -/
structure Tracks (R : ℕ) (d e : Drive ℚ) : Prop where
  data : e.data = (d.data.1 * 24 / R, d.data.2)
  core : e.motor.core = d.motor.core
  pins : e.motor.pins = d.motor.pins

theorem Tracks.sameOutput {R : ℕ} {d e : Drive ℚ} (h : Tracks R d e) : SameOutput d e :=
  ⟨(congrArg Core.compVolt h.core).symm, h.pins.symm, (congrArg Core.motorEnable h.core).symm⟩

/-- The control law sees the speed only through the saturated error and the threshold. -/
theorem apply_congr {c : Core ℚ} {speed speed' : ℚ} {time : ℤ} {k : Call ℚ}
    (hrun : ∀ refVolt, k = .run refVolt →
      adjustError (refError refVolt speed) = adjustError (refError refVolt speed'))
    (hstop : k = .stop → (3 < percent speed ↔ 3 < percent speed')) :
    c.apply (speed, time) k = c.apply (speed', time) k := by
  cases k with
  | run refVolt =>
    simp only [Core.apply]
    rw [hrun refVolt rfl]
  | stop =>
    have hout : (c.apply (speed, time) .stop).compVolt =
        (c.apply (speed', time) .stop).compVolt := by
      rw [Core.apply_stop_compVolt, Core.apply_stop_compVolt]
      simp only [hstop rfl]
    refine Core.ext rfl hout ?_ rfl
    rw [Core.apply_stop_duty, Core.apply_stop_duty, hout]

theorem Tracks.step {R : ℕ} {d e : Drive ℚ} (h : Tracks R d e) {v : Event ℚ}
    (hv : d.SeenAlike R v) : Tracks R (d.step v) (e.step (v.scaled R)) := by
  cases v with
  | sample speed time => exact ⟨rfl, h.core, h.pins⟩
  | call k =>
    have hfresh : e.Fresh ↔ d.Fresh := by
      show e.motor.core.prevTime < e.data.2 ↔ d.motor.core.prevTime < d.data.2
      rw [h.core, h.data]
    refine ⟨h.data, ?_, ?_⟩
    · show (e.step (.call k)).motor.core = (d.step (.call k)).motor.core
      rw [step_call_core, step_call_core, h.core, h.data]
      simp only [hfresh]
      split_ifs with hf
      · symm
        refine apply_congr ?_ ?_
        · rintro refVolt rfl
          exact hv hf
        · rintro rfl
          exact hv hf
      · rfl
    · cases k with
      | run refVolt =>
        show (e.motor.run e.data refVolt).2.pins = (d.motor.run d.data refVolt).2.pins
        have hout : e.motor.compVolt = d.motor.compVolt := congrArg Core.compVolt h.core
        rw [run_pins, run_pins, steer_pins, steer_pins, hout, h.pins]
      | stop =>
        show (e.motor.stop e.data).pins = (d.motor.stop d.data).pins
        rw [stop_pins, stop_pins, h.pins]

/-- Runs in which every acting call sees the speed and the scaled one alike. -/
theorem scales_of_seenAlike (Kp Ki : ℚ) {R : ℕ} {data : SpeedData ℚ} {es : List (Event ℚ)}
    (hdata : 0 < data.2 → (3 < percent data.1 ↔ 3 < percent (data.1 * 24 / R)))
    (hes : AllSteps step (SeenAlike R) (start Kp Ki R data) es) : Scales Kp Ki R data es := by
  have hstart : Tracks R (start Kp Ki R data) (start Kp Ki 24 (data.1 * 24 / R, data.2)) := by
    refine ⟨rfl, ?_, rfl⟩
    show (construct Kp Ki 24 (data.1 * 24 / R, data.2)).core = (construct Kp Ki R data).core
    rw [construct_core, construct_core]
    split_ifs with h
    · exact (apply_congr (by rintro _ ⟨⟩) fun _ => hdata h).symm
    · rfl
  intro n
  exact ((hes.take n).rel_map hstart fun d e v h hv => h.step hv).sameOutput

/-- **Exactly when the rated speed scales the loop**: when it is the default `24`.  For any other
rated speed and all gains some run differs from the scaled one, though not where every acting call
sees the speed and the scaled speed alike, and a motor at its rated speed under full reference has
an error. -/
theorem rated_speed_iff {R : ℕ} (hR : 0 < R) (Kp Ki : ℚ) :
    ((∀ data es, Scales Kp Ki R data es) ∧ refError 1 (R : ℚ) = 0 ↔ R = 24) ∧
      ∀ (data : SpeedData ℚ) (es : List (Event ℚ)),
        (0 < data.2 → (3 < percent data.1 ↔ 3 < percent (data.1 * 24 / R))) →
          AllSteps step (SeenAlike R) (start Kp Ki R data) es → Scales Kp Ki R data es := by
  refine ⟨⟨?_, ?_⟩, fun data es => scales_of_seenAlike Kp Ki⟩
  · rintro ⟨h, -⟩
    by_contra hne
    obtain ⟨speed, -, hspeed⟩ := exists_threshold hR hne
    have hout := (h (0, 0) [.sample speed 1, .call .stop] 2).compVolt
    change (exec step (start Kp Ki R (0, 0)) [.sample speed 1, .call .stop]).motor.compVolt =
      (exec step (start Kp Ki 24 (0 * 24 / R, 0))
        [.sample (speed * 24 / R) 1, .call .stop]).motor.compVolt at hout
    rw [stop_first_compVolt, stop_first_compVolt] at hout
    refine hspeed ?_
    split_ifs at hout with h1 h2 h2
    · exact iff_of_true h1 h2
    · norm_num at hout
    · norm_num at hout
    · exact iff_of_false h1 h2
  · rintro rfl
    have hscale (s : ℚ) : s * 24 / (24 : ℕ) = s := by
      push_cast
      ring
    refine ⟨fun data es => scales_of_seenAlike Kp Ki (fun _ => by rw [hscale]) ?_, ?_⟩
    · refine allSteps_of_invariant (P := fun _ => True) trivial (fun _ _ _ => trivial)
        (fun d e _ => ?_) es
      rcases e with _ | (_ | _) <;> simp [SeenAlike]
    · rw [refError_rat, percent]
      norm_num

theorem rated_speed_iff_applies :
    Scales (4 / 25) (1 / 100) 24 (0, 0) [.sample 12 100000, .call (.run 1), .call .stop] ∧
      Scales (4 / 25) (1 / 100) 12 (0, 0) [.sample 0 100000, .call (.run 1), .call .stop] := by
  constructor
  · exact ((rated_speed_iff (by decide) (4 / 25) (1 / 100)).1.2 rfl).1 _ _
  · refine (rated_speed_iff (by decide) (4 / 25) (1 / 100)).2 _ _ ?_ ?_
    · exact fun h => absurd h (by decide)
    · decide +kernel

/-- A motor rated at 12 rpm that turns at 12 rpm under full reference: `_compVolt` becomes
`161 / 200`, where the scaled run has the error `0` and keeps `_compVolt` at `0`. -/
theorem rated_speed_ignored :
    AllSteps step Forward (start (4 / 25) (1 / 100) 12 (0, 0))
        [.sample 12 100000, .call (.run 1)] ∧
      ¬ Scales (4 / 25) (1 / 100) 12 (0, 0) [.sample 12 100000, .call (.run 1)] ∧
      refError (1 : ℚ) 12 ≠ 0 := by
  refine ⟨by decide +kernel, fun h => ?_, by decide +kernel⟩
  exact absurd (h 2).compVolt (by decide +kernel)

end Drive

end NucleoMotor
