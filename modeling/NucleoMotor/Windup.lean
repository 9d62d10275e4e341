import NucleoMotor.Output
import NucleoMotor.Beats

/-!
# Integrator wind-up

The output is cut off at `100`, the integral behind it is not.  While a stalled motor keeps the
error at `5`, the integral grows with every sample, and the output stays at `100` for as long as
it takes to bring the integral down again.

* `no_uniform_unwinding`: no number of samples is enough for every history.
* `unwinds_within_history`: one sample more than the history had is always enough.
-/

namespace NucleoMotor

open MotorControl Runs Saturation Regulator

/-- A beat in the sampling period `T`, with a reference in `[0, 1]` and a speed `≥ 0`. -/
structure Beat.Paced (T : ℕ) (b : Beat) : Prop where
  gap : b.gap = T
  refVolt : 0 ≤ b.refVolt ∧ b.refVolt ≤ 1
  speed : 0 ≤ b.speed

/-- `_adjerrorVolt` is `-5`: the motor is far too fast. -/
def Beat.Fast (b : Beat) : Prop := b.error = -5

/-- After every history at period `T`, at most `N` fast samples bring the output below `100`. -/
def UnwindsWithin (Kp Ki : ℚ) (T N : ℕ) : Prop :=
  ∀ (ratedRPM : ℕ) (data : SpeedData ℚ) (hs fs : List Beat), (∀ b ∈ hs, b.Paced T) →
    (∀ b ∈ fs, b.Paced T ∧ b.Fast) → N ≤ fs.length →
      ∃ n ≤ N, (exec beat (construct Kp Ki ratedRPM data) (hs ++ fs.take n)).compVolt < 100

namespace MotorControl

theorem exec_beat_bounded {m : MotorControl ℚ} (h : m.core.Bounded) (bs : List Beat) :
    (exec beat m bs).core.Bounded :=
  exec_invariant (P := fun m : MotorControl ℚ => m.core.Bounded) h
    (fun m b h => by rw [beat_core]; exact h.apply _ _) bs

/-- Beats with one error and gap repeat one step of the regulator. -/
theorem exec_replicate_reg (m : MotorControl ℚ) (b : Beat) (n : ℕ) :
    (exec beat m (List.replicate n b)).core.reg =
      repeated m.core.gains b.error (seconds b.gap) n m.core.reg := by
  induction n with
  | zero => rfl
  | succ n ih =>
    rw [List.replicate_succ', exec_append, exec_cons, exec_nil, beat_reg, exec_beat_gains, ih,
      repeated_succ]

/-- Beats with errors at most `E` add at most `E` to the integral for each second that the PI
controller sees. -/
theorem accError_t_le (m : MotorControl ℚ) {T : ℕ} {E : ℚ} {bs : List Beat}
    (hT : ∀ b ∈ bs, b.gap = T) (hE : ∀ b ∈ bs, b.error ≤ E) :
    (exec beat m bs).picontrol.accError_t ≤
      m.picontrol.accError_t + bs.length * (E * seconds T) := by
  induction bs generalizing m with
  | nil => simp
  | cons b bs ih =>
    have hb : (m.beat b).picontrol.accError_t =
        m.picontrol.accError_t + b.error * seconds b.gap := congrArg State.acc (m.beat_reg b)
    have hle : b.error * seconds T ≤ E * seconds T :=
      mul_le_mul_of_nonneg_right (hE b List.mem_cons_self) (seconds_nonneg _)
    have hih := ih (m.beat b) (fun b' hb' => hT b' (List.mem_cons_of_mem b hb'))
      fun b' hb' => hE b' (List.mem_cons_of_mem b hb')
    rw [hb, hT b List.mem_cons_self] at hih
    rw [exec_cons, List.length_cons]
    push_cast
    linarith

end MotorControl

/-! ### The wind-up is bounded by the history -/

/-- **The wind-up lasts at most as long as the history**: after `n` samples at period `T`, at most
`n + 1` fast samples bring the output below the ceiling. -/
theorem unwinds_within_history {Kp Ki : ℚ} (hp : 0 < Kp) (hi : 0 < Ki) {T : ℕ} (ratedRPM : ℕ)
    (data : SpeedData ℚ) (hs fs : List Beat) (hhs : ∀ b ∈ hs, b.Paced T)
    (hfs : ∀ b ∈ fs, b.Paced T ∧ b.Fast) (hlen : hs.length + 1 ≤ fs.length) :
    ∃ n ≤ hs.length + 1,
      (exec beat (construct Kp Ki ratedRPM data) (hs ++ fs.take n)).compVolt < 100 := by
  refine ⟨hs.length + 1, le_rfl, ?_⟩
  -- the state before the last of these samples, when the integral is used up
  let m := exec beat (construct Kp Ki ratedRPM data) (hs ++ fs.take hs.length)
  let b := fs[hs.length]
  have hb : b.Paced T ∧ b.Fast := hfs b (List.getElem_mem _)
  have hlast : exec beat (construct Kp Ki ratedRPM data) (hs ++ fs.take (hs.length + 1)) =
      m.beat b := by
    rw [List.take_succ_eq_append_getElem hlen, ← List.append_assoc, exec_append]
    rfl
  have hacc : m.picontrol.accError_t ≤ 0 := by
    have hup := accError_t_le (construct Kp Ki ratedRPM data) (fun b h => (hhs b h).gap)
      (fun b _ => (abs_le.1 (abs_adjustError_le (refError b.refVolt b.speed))).2)
    have hdown := accError_t_le (exec beat (construct Kp Ki ratedRPM data) hs)
      (fun b h => (hfs b (List.mem_of_mem_take h)).1.gap)
      (fun b (h : b ∈ fs.take hs.length) => (hfs b (List.mem_of_mem_take h)).2.le)
    rw [List.length_take, min_eq_left (by omega)] at hdown
    rw [construct_accError_t] at hup
    simp only [m, exec_append]
    linarith
  have hg : m.core.gains = ⟨Kp, Ki, 100⟩ := by
    rw [exec_beat_gains, construct_gains]
  have hle : m.core.compVolt ≤ 100 :=
    (exec_beat_bounded (Core.bounded_construct Kp Ki ratedRPM data) _).le
  rw [hlast]
  show (m.beat b).core.reg.out < 100
  rw [beat_reg, hg, show b.error = -5 from hb.2]
  exact track_out_lt (g := ⟨Kp, Ki, 100⟩) hp hi.le (seconds_nonneg _) (by norm_num) hacc hle

/-! ### It is bounded by nothing else -/

/-- The beat of a motor held still under full reference, and of one at rated speed under none. -/
def stalled (T : ℕ) (hT : 0 < T) : Beat := ⟨1, 0, T, hT⟩

def overrun (T : ℕ) (hT : 0 < T) : Beat := ⟨0, 24, T, hT⟩

theorem stalled_error (T : ℕ) (hT : 0 < T) : (stalled T hT).error = 5 := by
  rw [Beat.error, stalled, refError_rat, percent, adjustError_rat]
  norm_num [shape]

theorem stalled_paced (T : ℕ) (hT : 0 < T) : (stalled T hT).Paced T :=
  ⟨rfl, by norm_num [stalled], by norm_num [stalled]⟩

theorem overrun_paced (T : ℕ) (hT : 0 < T) : (overrun T hT).Paced T :=
  ⟨rfl, by norm_num [overrun], by norm_num [overrun]⟩

theorem overrun_error (T : ℕ) (hT : 0 < T) : (overrun T hT).error = -5 := by
  rw [Beat.error, overrun, refError_rat, percent, adjustError_rat]
  norm_num [shape]

/-- Wherever the PI controller sees time pass, no number of samples unwinds every history. -/
theorem not_unwindsWithin {Kp Ki : ℚ} (hp : 0 < Kp) (hi : 0 < Ki) {T : ℕ} (hT : 0 < T)
    (hsec : 0 < seconds T) (N : ℕ) : ¬ UnwindsWithin Kp Ki T N := by
  intro h
  obtain ⟨k, hk⟩ := exists_nat_ge (20 / Kp)
  obtain ⟨l, hl⟩ := exists_nat_ge (Kp / (Ki * seconds T))
  rw [div_le_iff₀ hp] at hk
  rw [div_le_iff₀ (mul_pos hi hsec)] at hl
  -- stalled for `N + k + l` samples: `k` bring the output up, `N + l` feed the integral
  let m := exec beat (construct Kp Ki 24 (0, 0)) (List.replicate (N + k + l) (stalled T hT))
  have hg : m.core.gains = ⟨Kp, Ki, 100⟩ := by rw [exec_beat_gains, construct_gains]
  have hreg : m.core.reg = repeated ⟨Kp, Ki, 100⟩ 5 (seconds T) (N + k + l) ⟨0, 0⟩ := by
    rw [exec_replicate_reg, construct_gains, stalled_error]
    rfl
  have hacc : m.core.reg.acc = (N + k + l : ℕ) * (5 * seconds T) := by
    rw [hreg, repeated_acc, zero_add]
  have hout : m.core.reg.out = 100 := by
    refine le_antisymm
      (exec_beat_bounded (Core.bounded_construct Kp Ki 24 (0, 0)) _).le ?_
    have hge := repeated_out_ge (g := ⟨Kp, Ki, 100⟩) (s := ⟨0, 0⟩) (e := 5) hi.le (by norm_num)
      hp.le hsec.le le_rfl (N + k + l)
    rw [← hreg] at hge
    refine le_trans (le_min le_rfl ?_) hge
    push_cast
    have : 0 ≤ ((N : ℚ) + l) * Kp := by positivity
    nlinarith only [hk, this]
  obtain ⟨n, hn, hlt⟩ := h 24 (0, 0) (List.replicate (N + k + l) (stalled T hT))
    (List.replicate N (overrun T hT))
    (fun b hb => List.eq_of_mem_replicate hb ▸ stalled_paced T hT)
    (fun b hb => List.eq_of_mem_replicate hb ▸ ⟨overrun_paced T hT, overrun_error T hT⟩)
    (by simp)
  rw [List.take_replicate, min_eq_left hn, exec_append] at hlt
  refine absurd hlt (not_lt.2 (le_of_eq ?_))
  have hlast := exec_replicate_reg m (overrun T hT) n
  rw [hg, overrun_error] at hlast
  show 100 = (exec beat m (List.replicate n (overrun T hT))).core.reg.out
  rw [hlast]
  refine (repeated_out_ceil (g := ⟨Kp, Ki, 100⟩) hi.le (by norm_num) hsec.le hout ?_).symm
  have hnN : (n : ℚ) ≤ N := by exact_mod_cast hn
  have hdiff : 0 ≤ Ki * seconds T * ((N : ℚ) - n + k) := by
    have := sub_nonneg.2 hnN
    positivity
  rw [hacc]
  push_cast
  nlinarith only [hl, hdiff]

/-- With the gains and the sampling period of `main.cpp`. -/
theorem no_uniform_unwinding : ¬ ∃ N, UnwindsWithin (4 / 25) (1 / 100) 100000 N := by
  rintro ⟨N, h⟩
  exact not_unwindsWithin (by norm_num) (by norm_num) (by norm_num) (by decide +kernel) N h

theorem unwinds_within_history_applies :
    ∃ n ≤ 2, (exec beat (construct (4 / 25 : ℚ) (1 / 100) 24 (0, 0))
      ([stalled 100000 (by decide)] ++
        [overrun 100000 (by decide), overrun 100000 (by decide)].take n)).compVolt < 100 :=
  unwinds_within_history (by norm_num) (by norm_num) 24 (0, 0) [stalled 100000 (by decide)]
    [overrun 100000 (by decide), overrun 100000 (by decide)]
    (fun b hb => List.mem_singleton.1 hb ▸ stalled_paced _ _)
    (fun b hb => by
      rw [show b = overrun 100000 (by decide) by simpa using hb]
      exact ⟨overrun_paced _ _, overrun_error _ _⟩)
    le_rfl

end NucleoMotor
