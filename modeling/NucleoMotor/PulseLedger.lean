import NucleoMotor.EncodedMotor
import NucleoMotor.Lib.Runs

/-!
# Conservation of pulses

A `Ledger` follows an encoder through its interrupts: it counts the pulses received, and adds up
the pulses that the stored speeds stand for, each over its own window.  The two agree, up to the
pulses still in the buffer, where every window is a whole number of minutes·10⁻⁶ — a multiple of
60 µs — or empty of pulses: `time_m` first divides the microseconds by 60 as integers, so a window
under 60 µs makes it zero and any other remainder makes the stored speed too large
(`conserved_iff`).
-/

namespace NucleoMotor

open EncodedMotor Runs

/-- An encoder with what its stored speeds account for, what it received, and whether some tick
has divided by zero. -/
structure Ledger where
  encoder : EncodedMotor ℚ
  accounted : ℚ
  received : ℕ
  dividedByZero : Bool

namespace Ledger

/-- The microseconds since the last tick. -/
def window (l : Ledger) (currentTime : ℕ) : ℕ := currentTime - l.encoder.previousSaveTime

def step (l : Ledger) (i : Interrupt) : Ledger :=
  let encoder := l.encoder.interrupt i
  match i with
  | .incrementPulse => { l with encoder := encoder, received := l.received + 1 }
  | .saveData currentTime =>
    { encoder := encoder
      accounted := l.accounted +
        encoder.speed * l.window currentTime / 60000000 * encoder.pulsePerRotation
      received := l.received
      dividedByZero := l.dividedByZero || time_m (l.window currentTime) == (0 : ℚ) }

def start (pulsePerRotation : ℕ) (samplingRate : ℚ) (encodeType : EncodeType) : Ledger :=
  ⟨construct pulsePerRotation samplingRate encodeType, 0, 0, false⟩

/-- No tick has divided by zero, and the stored speeds and the buffer account for all pulses. -/
def Conserved (l : Ledger) : Prop :=
  l.dividedByZero = false ∧ l.accounted + l.encoder.pulseBuffer = l.received

/-- The window of a tick has at least 60 µs, and is a multiple of 60 µs or without pulses. -/
def ExactWindow (l : Ledger) : Interrupt → Prop
  | .incrementPulse => True
  | .saveData currentTime => 60 ≤ l.window currentTime ∧
      (60 ∣ l.window currentTime ∨ l.encoder.pulseBuffer = 0)

/-- The timer readings increase. -/
def Clocked (l : Ledger) : Interrupt → Prop
  | .incrementPulse => True
  | .saveData currentTime => l.encoder.previousSaveTime < currentTime

instance (l : Ledger) : Decidable l.Conserved := inferInstanceAs (Decidable (_ ∧ _))

instance (l : Ledger) : ∀ i, Decidable (l.ExactWindow i)
  | .incrementPulse => inferInstanceAs (Decidable True)
  | .saveData _ => inferInstanceAs (Decidable (_ ∧ (_ ∣ _ ∨ _ = _)))

instance (l : Ledger) : ∀ i, Decidable (l.Clocked i)
  | .incrementPulse => inferInstanceAs (Decidable True)
  | .saveData _ => inferInstanceAs (Decidable (_ < _))

theorem time_m_eq_zero_iff (w : ℕ) : (time_m w : ℚ) = 0 ↔ w < 60 := by
  have h : (time_m w : ℚ) = (w / 60 : ℕ) / 1000000 := rfl
  rw [h, div_eq_zero_iff]
  simp [Nat.div_eq_zero_iff]

/-- What the stored speed stands for over its window: the pulses scaled by `w / (60 ⌊w / 60⌋)`. -/
theorem step_accounted {l : Ledger} (h : 0 < l.encoder.pulsePerRotation) {currentTime : ℕ}
    (h60 : 60 ≤ l.window currentTime) :
    (l.step (.saveData currentTime)).accounted = l.accounted + l.encoder.pulseBuffer *
      (l.window currentTime / (60 * (l.window currentTime / 60 : ℕ))) := by
  have hspeed : (l.encoder.saveData currentTime).speed =
      ((l.encoder.pulseBuffer : ℚ) / l.encoder.pulsePerRotation) /
        ((l.window currentTime / 60 : ℕ) / 1000000) := rfl
  have hppr : (l.encoder.pulsePerRotation : ℚ) ≠ 0 := by exact_mod_cast h.ne'
  have hq : ((l.window currentTime / 60 : ℕ) : ℚ) ≠ 0 := by
    have : 0 < l.window currentTime / 60 := Nat.div_pos h60 (by norm_num)
    exact_mod_cast this.ne'
  show l.accounted + (l.encoder.saveData currentTime).speed * l.window currentTime / 60000000 *
    l.encoder.pulsePerRotation = _
  rw [hspeed]
  field_simp
  ring

theorem scaled_eq_iff (b : ℕ) {w : ℕ} (h60 : 60 ≤ w) :
    (b : ℚ) * (w / (60 * (w / 60 : ℕ))) = b ↔ 60 ∣ w ∨ b = 0 := by
  have hq : 0 < w / 60 := Nat.div_pos h60 (by norm_num)
  have hden : (60 * (w / 60 : ℕ) : ℚ) ≠ 0 := by positivity
  have hdvd : (w : ℚ) / (60 * (w / 60 : ℕ)) = 1 ↔ 60 ∣ w := by
    rw [div_eq_one_iff_eq hden]
    constructor
    · intro h
      exact ⟨w / 60, by exact_mod_cast h⟩
    · intro h
      have h' := Nat.mul_div_cancel' h
      exact_mod_cast h'.symm
  by_cases hb : b = 0
  · simp [hb]
  · have hb' : (b : ℚ) ≠ 0 := by exact_mod_cast hb
    rw [mul_eq_left₀ hb', hdvd]
    simp [hb]

theorem step_conserved_iff {l : Ledger} (hppr : 0 < l.encoder.pulsePerRotation)
    (h : l.Conserved) (i : Interrupt) : (l.step i).Conserved ↔ l.ExactWindow i := by
  cases i with
  | incrementPulse =>
    -- one pulse more in the buffer and one more received
    refine iff_of_true ⟨h.1, ?_⟩ trivial
    have hlaw := h.2
    simp only [step, interrupt, incrementPulse]
    push_cast
    linarith
  | saveData currentTime =>
    have hlaw := h.2
    have hzero := time_m_eq_zero_iff (l.window currentTime)
    by_cases h60 : 60 ≤ l.window currentTime
    · have hacc := step_accounted hppr h60
      have hiff := scaled_eq_iff l.encoder.pulseBuffer h60
      have hno : (time_m (l.window currentTime) : ℚ) ≠ 0 := fun h0 => by
        have := hzero.1 h0
        omega
      have hdiv : (l.step (.saveData currentTime)).dividedByZero = false := by
        simp only [step, h.1, Bool.false_or]
        exact beq_false_of_ne hno
      have hbuffer : (l.step (.saveData currentTime)).encoder.pulseBuffer = 0 := rfl
      have hreceived : (l.step (.saveData currentTime)).received = l.received := rfl
      rw [Conserved, ExactWindow, ← hiff, hacc, hbuffer, hreceived, ← hlaw]
      simp only [hdiv, h60, true_and, Nat.cast_zero, add_zero, add_right_inj]
    · -- the tick divides by zero
      refine iff_of_false (fun hc => ?_) (fun hc => h60 hc.1)
      have hdiv := hc.1
      simp only [step, h.1, Bool.false_or, beq_eq_false_iff_ne] at hdiv
      exact hdiv (hzero.2 (by omega))

/-- **Exactly when pulses are conserved** along a run of interrupts from construction. -/
theorem conserved_iff {pulsePerRotation : ℕ} (h : 0 < pulsePerRotation) (samplingRate : ℚ)
    (encodeType : EncodeType) (es : List Interrupt) :
    Always step Conserved (start pulsePerRotation samplingRate encodeType) es ↔
      AllSteps step ExactWindow (start pulsePerRotation samplingRate encodeType) es := by
  refine always_iff_allSteps (Q := fun l => 0 < l.encoder.pulsePerRotation)
    (allSteps_true _ es) h ⟨rfl, by simp [start, construct]⟩ (fun l i hl _ => ?_)
    (fun l i hl hc _ => step_conserved_iff hl hc i)
  cases i <;> exact hl

/-- Windows of 99 960 and 180 µs are multiples of 60 µs. -/
theorem conserved_iff_applies :
    Always step Conserved (start 7392 10 .X4) [.incrementPulse, .saveData 99960, .incrementPulse,
      .incrementPulse, .saveData 100140] :=
  (conserved_iff (by decide) 10 .X4 _).2 (by decide +kernel)

/-- One pulse in the nominal window of 100 ms: the stored speed stands for `2500 / 2499` pulses,
since 100 000 is not a multiple of 60.  A window of 30 µs divides by zero. -/
theorem nominal_window_overcounts :
    let es : List Interrupt := [.incrementPulse, .saveData 100000]
    let late : List Interrupt := [.saveData 30]
    (AllSteps step Clocked (start 7392 10 .X4) es ∧
        ¬ Always step Conserved (start 7392 10 .X4) es) ∧
      AllSteps step Clocked (start 7392 10 .X4) late ∧
        (exec step (start 7392 10 .X4) late).dividedByZero = true := by
  refine ⟨⟨by decide +kernel, fun h => ?_⟩, by decide +kernel, by decide +kernel⟩
  exact absurd (h 2) (by decide +kernel)

end Ledger

end NucleoMotor
