import NucleoMotor.Beats

/-!
# Restarting after a stop

`stop` returns the output to `0` but does not reach into the `PIcontrol` object, whose integral
stays.  A restart therefore behaves like a new controller whose integrator starts from what the
history left there (`restart_keeps_integral`), which is a fresh start for every later sequence
exactly when that is `0` or `Ki` is.
-/

namespace NucleoMotor

open MotorControl Runs Saturation Regulator

namespace MotorControl

/-- `m` with the integral `acc` in its PI controller. -/
def withIntegral (m : MotorControl ℚ) (acc : ℚ) : MotorControl ℚ :=
  { m with picontrol := { m.picontrol with accError_t := acc } }

/-- The response depends on the gains, the output and, unless `Ki = 0`, the integral. -/
theorem response_congr {m m' : MotorControl ℚ} (hg : m.core.gains = m'.core.gains)
    (hout : m.compVolt = m'.compVolt)
    (hacc : m'.core.gains.ki = 0 ∨ m.picontrol.accError_t = m'.picontrol.accError_t)
    (bs : List Beat) : response m bs = response m' bs := by
  induction bs generalizing m m' with
  | nil => rfl
  | cons b bs ih =>
    -- outputs and integrals stay equal, the latter unless `Ki = 0` hides them
    have hreg := m.beat_reg b
    have hreg' := m'.beat_reg b
    have hacc' : m'.core.gains.ki = 0 ∨
        (m.beat b).picontrol.accError_t = (m'.beat b).picontrol.accError_t := by
      refine hacc.imp_right fun h => ?_
      exact (congrArg State.acc hreg).trans
        ((congrArg (· + b.error * seconds b.gap) h).trans (congrArg State.acc hreg').symm)
    have hout' : (m.beat b).compVolt = (m'.beat b).compVolt := by
      refine (congrArg State.out hreg).trans (Eq.trans ?_ (congrArg State.out hreg').symm)
      simp only [track, signal, hg, Core.reg_out, Core.reg_acc]
      rw [show m.core.compVolt = m'.core.compVolt from hout]
      rcases hacc with h | h
      · simp [h]
      · rw [show m.core.picontrol.accError_t = m'.core.picontrol.accError_t from h]
    rw [response, response, beat_motorEnable, beat_motorEnable, hout',
      ih (by rw [beat_gains, beat_gains, hg]) hout' (by rwa [beat_gains])]

/-- A beat with reference `0` on a motor at rest: the dead band makes its error `0`. -/
def idleBeat : Beat := ⟨0, 0, 1, one_pos⟩

theorem idleBeat_compVolt (m : MotorControl ℚ) : (m.beat idleBeat).compVolt =
    min 100 (m.compVolt + m.core.gains.ki * m.picontrol.accError_t) := by
  have h0 : idleBeat.error = 0 := by
    rw [Beat.error, idleBeat, refError_rat, percent, adjustError_rat]
    norm_num [shape]
  have h := congrArg State.out (m.beat_reg idleBeat)
  rw [h0, track, signal] at h
  simp only [mul_zero, zero_mul, zero_add, add_zero] at h
  exact h

end MotorControl

namespace Drive

/-- **A restart after a stop** that left `_compVolt = 0` behaves like a new controller with the
same gains whose integrator starts from the value left by the history; it is a fresh start,
whatever follows, exactly when `Ki` or that value is `0`. -/
theorem restart_keeps_integral (Kp Ki : ℚ) (ratedRPM : ℕ) (data : SpeedData ℚ)
    (es : List (Event ℚ)) :
    let m := (exec step (start Kp Ki ratedRPM data) (es ++ [.call .stop])).motor
    let new := construct Kp Ki ratedRPM (0, 0)
    m.compVolt = 0 →
      (∀ bs, response m bs = response (new.withIntegral m.picontrol.accError_t) bs) ∧
        ((∀ bs, response m bs = response new bs) ↔ Ki = 0 ∨ m.picontrol.accError_t = 0) := by
  intro m new h0
  have hgains : m.core.gains = ⟨Kp, Ki, 100⟩ := by
    rw [← start_gains Kp Ki ratedRPM data]
    exact exec_gains _ _
  have hold (bs : List Beat) :
      response m bs = response (new.withIntegral m.picontrol.accError_t) bs := by
    refine response_congr ?_ ?_ (.inr ?_) bs
    · exact hgains
    · exact h0
    · rfl
  refine ⟨hold, fun h => ?_, fun h bs => ?_⟩
  · -- after the idle beat the outputs differ by what the integral adds
    have hidle := h [idleBeat]
    simp only [response, List.cons.injEq, Prod.mk.injEq, and_true] at hidle
    have hnew : (new.beat idleBeat).compVolt = 0 := by
      rw [idleBeat_compVolt]
      simp [new, construct, initial, stop_eq, setDirectionBool, setDirection, fetch,
        PIcontrol.construct]
    rw [hnew, idleBeat_compVolt, h0, hgains, zero_add] at hidle
    rw [← mul_eq_zero]
    rcases min_choice (100 : ℚ) (Ki * m.picontrol.accError_t) with hc | hc
    · rw [hc] at hidle
      norm_num at hidle
    · exact hc.symm.trans hidle.1
  · refine response_congr ?_ ?_ ?_ bs
    · exact hgains
    · exact h0
    · exact h

/-- Here the history leaves the integral `5`. -/
theorem restart_keeps_integral_applies :
    let m := (exec step (start (4 / 25) (1 / 100) 24 (0, 0))
      ([.sample 0 1000000, .call (.run 1), .sample 0 2000000] ++ [.call .stop])).motor
    let new := construct (4 / 25 : ℚ) (1 / 100) 24 (0, 0)
    (∀ bs, response m bs = response (new.withIntegral m.picontrol.accError_t) bs) ∧
      ((∀ bs, response m bs = response new bs) ↔
        (1 / 100 : ℚ) = 0 ∨ m.picontrol.accError_t = 0) :=
  restart_keeps_integral (4 / 25) (1 / 100) 24 (0, 0)
    [.sample 0 1000000, .call (.run 1), .sample 0 2000000] (by decide +kernel)

/-- After a start against a stalled motor and a stop, the first call of `run` with reference `0`
gives the output `1 / 20`, where a new controller gives `0`. -/
theorem restart_remembers :
    let es : List (Event ℚ) := [.sample 0 1000000, .call (.run 1), .sample 0 2000000]
    let m := (exec step (start (4 / 25) (1 / 100) 24 (0, 0)) (es ++ [.call .stop])).motor
    AllSteps step Forward (start (4 / 25) (1 / 100) 24 (0, 0)) (es ++ [.call .stop]) ∧
      m.compVolt = 0 ∧
      response m [⟨0, 0, 1000000, by decide⟩] ≠
        response (construct (4 / 25 : ℚ) (1 / 100) 24 (0, 0)) [⟨0, 0, 1000000, by decide⟩] := by
  decide +kernel

end Drive

end NucleoMotor
