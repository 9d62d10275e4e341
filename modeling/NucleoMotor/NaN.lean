import NucleoMotor.Lib.Extended
import NucleoMotor.Rig

/-!
# The rig with infinities and NaNs

Exact arithmetic gives every quotient a value, floating-point arithmetic does not: a sample less
than 60 µs after the last divides by zero minutes, and without a pulse in between by that the speed
is no number.  On `Extended ℚ` the code is seen to do this: nothing is rounded and no number is too
large there, so that all infinities come from divisions by zero.

* `map_exec`: where the samples are 60 µs apart the rig runs as it does in exact arithmetic.
* `finite_iff`: the controller's integral and its outputs stay finite exactly when `run` never acts
  on a NaN; once it has, the integral is a NaN for ever (`nan_forever`).
-/

namespace NucleoMotor

open MotorControl EncodedMotor Runs Extended

/-- The arithmetic with infinities and NaNs, in which no operation rounds or overflows. -/
instance instArithExtended : Arith (Extended ℚ) where
  lit q := fin q
  toFloat x := x
  decLt := Extended.instDecidableLT

@[simp] theorem lit_extended (q : ℚ) : (lit q : Extended ℚ) = fin q := rfl

@[simp] theorem toFloat_extended (x : Extended ℚ) : toFloat x = x := rfl

@[simp] theorem toFloat_rat (x : ℚ) : toFloat x = x := rfl

/-! ### The exact values among them -/

section Map

variable {α β : Type} (φ : α → β)

def PIcontrol.map (p : PIcontrol α) : PIcontrol β :=
  ⟨φ p.Kp, φ p.Ki, φ p.thisError, φ p.accError_t, φ p.timestep, φ p.compensateError⟩

def MotorControl.map (m : MotorControl α) : MotorControl β where
  picontrol := m.picontrol.map φ
  motorEnable := φ m.motorEnable
  motorDirection1 := m.motorDirection1
  motorDirection2 := m.motorDirection2
  ratedRPM := m.ratedRPM
  speedVolt := φ m.speedVolt
  adjerrorVolt := φ m.adjerrorVolt
  errorVolt := φ m.errorVolt
  compVolt := φ m.compVolt
  speedData := (φ m.speedData.1, m.speedData.2)
  speed := φ m.speed
  thisTime := m.thisTime
  prevTime := m.prevTime

def EncodedMotor.map (e : EncodedMotor α) : EncodedMotor β where
  encoderInterrupt := e.encoderInterrupt
  pulsePerRotation := e.pulsePerRotation
  samplingRate := φ e.samplingRate
  samplingPeriod := φ e.samplingPeriod
  encodeType := e.encodeType
  speed := φ e.speed
  pulseBuffer := e.pulseBuffer
  previousSaveTime := e.previousSaveTime
  previousReadTime := e.previousReadTime
  ticker := e.ticker

def Rig.map (r : Rig α) : Rig β := ⟨r.encoder.map φ, r.motor.map φ⟩

def MotorControl.Call.map : Call α → Call β
  | .run refVolt => .run (φ refVolt)
  | .stop => .stop

def RigEvent.map : RigEvent α → RigEvent β
  | .interrupt i => .interrupt i
  | .call c => .call (c.map φ)

end Map

theorem map_compensateSignal (p : PIcontrol ℚ) (error : ℚ) (timestep : ℕ) :
    (p.map fin).compensateSignal (fin error) timestep =
      (fin (p.compensateSignal error timestep).1,
        (p.compensateSignal error timestep).2.map fin) := by
  simp [PIcontrol.compensateSignal, PIcontrol.I_signal, PIcontrol.P_signal, PIcontrol.map, fin_div]

theorem adjustError_fin (errorVolt : ℚ) :
    adjustError (fin errorVolt) = fin (adjustError errorVolt) := by
  simp only [adjustError, lit_extended, lit_rat, fin_lt_fin]
  split_ifs <;> rfl

theorem write_fin (value : ℚ) : PwmOut.write (fin value) = fin (PwmOut.write value) := by
  simp only [PwmOut.write, lit_extended, lit_rat, fin_lt_fin]
  split_ifs <;> rfl

section MotorControl

variable (m : MotorControl ℚ) (data : SpeedData ℚ) (refVolt : ℚ)

theorem map_setDirection (direction : Direction) :
    (m.map fin).setDirection direction = (m.setDirection direction).map fin := by
  cases direction <;> rfl

theorem map_steer : (m.map fin).steer (fin refVolt) = (m.steer refVolt).map fin := by
  have hcomp : ((m.map fin).compVolt == lit 0) = (m.compVolt == lit 0) := fin_beq_fin _ _
  have href : (lit 0 < fin refVolt) ↔ lit 0 < refVolt := fin_lt_fin
  unfold steer
  simp only [hcomp, href, map_setDirection]
  split_ifs <;> rfl

theorem map_fetch : (m.map fin).fetch (fin data.1, data.2) = (m.fetch data).map fin := by
  simp [fetch, MotorControl.map, fin_div]

theorem map_aim : (m.map fin).aim (fin refVolt) = (m.aim refVolt).map fin := by
  simp [aim, MotorControl.map, adjustError_fin]

theorem map_drive : (m.map fin).drive = m.drive.map fin := by
  simp [drive, power, MotorControl.map, map_compensateSignal, ← apply_ite fin, write_fin, fin_div]

theorem map_brake : (m.map fin).brake = m.brake.map fin := by
  simp [brake, power, MotorControl.map, ← apply_ite fin, write_fin]

/-- **The controller computes with numbers as in exact arithmetic.** -/
theorem map_call (c : Call ℚ) :
    (m.map fin).call (fin data.1, data.2) (c.map fin) = (m.call data c).map fin := by
  have hprev : (m.map fin).prevTime = m.prevTime := rfl
  cases c with
  | run refVolt =>
    rw [Call.map, call, call, run_snd, run_snd, hprev, map_steer, map_fetch, map_aim, map_drive]
    split_ifs <;> rfl
  | stop =>
    rw [Call.map, call, call, stop_eq, stop_eq, hprev, map_fetch, map_brake]
    split_ifs <;> rfl

theorem map_construct (Kp Ki : ℚ) (ratedRPM : ℕ) (data : SpeedData ℚ) :
    MotorControl.construct (fin Kp) (fin Ki) ratedRPM (fin data.1, data.2) =
      (MotorControl.construct Kp Ki ratedRPM data).map fin := by
  have hstop := map_call (initial Kp Ki ratedRPM) data .stop
  show MotorControl.setDirection ((((initial Kp Ki ratedRPM).map fin).call
    (fin data.1, data.2) (Call.map fin .stop))) .Clockwise = _
  rw [hstop, map_setDirection]
  rfl

end MotorControl

/-! ### Samples 60 µs apart -/

theorem map_saveData {e : EncodedMotor ℚ} {currentTime : ℕ} (hppr : e.pulsePerRotation ≠ 0)
    (h : e.previousSaveTime + 60 ≤ currentTime) :
    (e.map fin).saveData currentTime = (e.saveData currentTime).map fin := by
  have hminutes : (((currentTime - e.previousSaveTime) / 60 : ℕ) : ℚ) / 1000000 ≠ 0 := by
    have hpos : 0 < (currentTime - e.previousSaveTime) / 60 := Nat.div_pos (by omega) (by norm_num)
    positivity
  have hppr' : (e.pulsePerRotation : ℚ) ≠ 0 := by exact_mod_cast hppr
  simp [saveData, time_m, EncodedMotor.map, fin_div _ hminutes, fin_div _ hppr', fin_div]

theorem map_getSpeed (e : EncodedMotor ℚ) :
    (e.map fin).getSpeed = (fin e.getSpeed.1, e.getSpeed.2) := rfl

theorem map_interrupt {e : EncodedMotor ℚ} {i : Interrupt} (hppr : e.pulsePerRotation ≠ 0)
    (h : e.Spaced 60 i) : (e.map fin).interrupt i = (e.interrupt i).map fin := by
  cases i with
  | incrementPulse => rfl
  | saveData currentTime => exact map_saveData hppr h

theorem map_step {r : Rig ℚ} {e : RigEvent ℚ} (hppr : r.encoder.pulsePerRotation ≠ 0)
    (h : r.Spaced 60 e) : (r.map fin).step (e.map fin) = (r.step e).map fin := by
  cases e with
  | interrupt i =>
    have hinterrupt := map_interrupt hppr h
    show (⟨(r.encoder.map fin).interrupt i, r.motor.map fin⟩ : Rig (Extended ℚ)) = _
    rw [hinterrupt]
    rfl
  | call c =>
    have hcall := map_call r.motor r.encoder.getSpeed c
    show (⟨r.encoder.map fin, (r.motor.map fin).call (fin r.encoder.getSpeed.1,
      r.encoder.getSpeed.2) (c.map fin)⟩ : Rig (Extended ℚ)) = _
    rw [hcall]
    rfl

/-- The number of pulses of a rotation never changes. -/
theorem interrupt_pulsePerRotation {α : Type} [Arith α] (e : EncodedMotor α) (i : Interrupt) :
    (e.interrupt i).pulsePerRotation = e.pulsePerRotation := by
  cases i <;> rfl

theorem map_exec {r : Rig ℚ} {es : List (RigEvent ℚ)} (hppr : r.encoder.pulsePerRotation ≠ 0)
    (h : AllSteps Rig.step (Rig.Spaced 60) r es) :
    exec Rig.step (r.map fin) (es.map (RigEvent.map fin)) = (exec Rig.step r es).map fin := by
  suffices h' : (exec Rig.step r es).encoder.pulsePerRotation ≠ 0 ∧
      exec Rig.step (r.map fin) (es.map (RigEvent.map fin)) = (exec Rig.step r es).map fin from h'.2
  refine AllSteps.rel_map (R := fun r r' => r.encoder.pulsePerRotation ≠ 0 ∧ r' = r.map fin) h
    ⟨hppr, rfl⟩ ?_
  rintro r _ e ⟨hppr, rfl⟩ he
  refine ⟨?_, map_step hppr he⟩
  cases e with
  | interrupt i => exact (interrupt_pulsePerRotation r.encoder i).symm ▸ hppr
  | call c => exact hppr

/-- **With samples 60 µs apart no infinity and no NaN appears anywhere**, and the rig runs as in
exact arithmetic. -/
theorem exact_of_spaced {pulsePerRotation : ℕ} (hppr : pulsePerRotation ≠ 0) {samplingRate : ℚ}
    (hrate : samplingRate ≠ 0) (encodeType : EncodeType) {before : List Interrupt}
    (hbefore : AllSteps interrupt (EncodedMotor.Spaced 60)
      (EncodedMotor.construct pulsePerRotation samplingRate encodeType) before)
    (Kp Ki : ℚ) (ratedRPM : ℕ) {es : List (RigEvent ℚ)}
    (hes : AllSteps Rig.step (Rig.Spaced 60)
      (Rig.start pulsePerRotation samplingRate encodeType before Kp Ki ratedRPM) es) :
    exec Rig.step (Rig.start pulsePerRotation (fin samplingRate) encodeType before (fin Kp) (fin Ki)
      ratedRPM) (es.map (RigEvent.map fin)) =
    (exec Rig.step (Rig.start pulsePerRotation samplingRate encodeType before Kp Ki ratedRPM)
      es).map fin := by
  have hconstruct : EncodedMotor.construct pulsePerRotation (fin samplingRate) encodeType =
      (EncodedMotor.construct pulsePerRotation samplingRate encodeType).map fin := by
    simp [EncodedMotor.construct, EncodedMotor.map, fin_div _ hrate]
  have hinterrupt : ∀ (e : EncodedMotor ℚ) (e' : EncodedMotor (Extended ℚ)) i,
      e.pulsePerRotation ≠ 0 ∧ e' = e.map fin → e.Spaced 60 i →
        (e.interrupt i).pulsePerRotation ≠ 0 ∧ e'.interrupt (id i) = (e.interrupt i).map fin := by
    rintro e _ i ⟨hppr, rfl⟩ hi
    exact ⟨(interrupt_pulsePerRotation e i).symm ▸ hppr, map_interrupt hppr hi⟩
  obtain ⟨hppr', hmap⟩ := hbefore.rel_map ⟨hppr, hconstruct⟩ hinterrupt
  rw [List.map_id] at hmap
  have hstart : Rig.start pulsePerRotation (fin samplingRate) encodeType before (fin Kp) (fin Ki)
      ratedRPM =
        (Rig.start pulsePerRotation samplingRate encodeType before Kp Ki ratedRPM).map fin := by
    simp only [Rig.start]
    rw [hmap, map_getSpeed, map_construct, Rig.map]
  rw [hstart]
  exact map_exec hppr' hes

theorem exact_of_spaced_applies :
    let es : List (RigEvent ℚ) := [.interrupt .incrementPulse, .interrupt (.saveData 200000),
      .call (.run (1 / 2)), .interrupt (.saveData 300000), .call .stop]
    exec Rig.step (Rig.start 7392 (fin 10) .X4 [.saveData 100000] (fin (4 / 25)) (fin (1 / 100)) 24)
      (es.map (RigEvent.map fin)) =
    (exec Rig.step (Rig.start 7392 10 .X4 [.saveData 100000] (4 / 25) (1 / 100) 24) es).map fin :=
  exact_of_spaced (by norm_num) (by norm_num) .X4 (by decide +kernel) (4 / 25) (1 / 100) 24
    (by decide +kernel)

/-! ### What a NaN does to the controller -/

namespace MotorControl.Core

/-- The integral, the compensated signal and the duty cycle are finite.  The speed and the error of
a sample need not be. -/
structure Finite (c : Core (Extended ℚ)) : Prop where
  accError_t : ∃ x, c.picontrol.accError_t = fin x
  compVolt : ∃ x, c.compVolt = fin x
  motorEnable : ∃ x, c.motorEnable = fin x

variable {c : Core (Extended ℚ)} {data : SpeedData (Extended ℚ)} {refVolt Kp Ki : Extended ℚ}

/-- An infinite speed is an error like another, cut off at 5. -/
theorem adjustError_finite {x : ℚ} (hdata : data.1 ≠ nan) :
    ∃ y, adjustError (refError (fin x) data.1) = fin y := by
  cases hspeed : data.1 with
  | fin speed =>
    refine ⟨adjustError (refError x speed), ?_⟩
    rw [← adjustError_fin]
    congr 1
    simp [refError, fin_div]
  | posInf =>
    have herror : refError (fin x) (posInf : Extended ℚ) = negInf := by
      simp [refError]
      rfl
    exact ⟨-5, by rw [herror]; rfl⟩
  | negInf =>
    have herror : refError (fin x) (negInf : Extended ℚ) = posInf := by
      simp [refError]
      rfl
    exact ⟨5, by rw [herror]; rfl⟩
  | nan => exact absurd hspeed hdata

/-- **A NaN gets into the integral and the output.** -/
theorem apply_run_nan (refVolt : Extended ℚ)
    (h : c.picontrol.accError_t = nan ∨ data.1 = nan) :
    (c.apply data (.run refVolt)).picontrol.accError_t = nan ∧
      (c.apply data (.run refVolt)).compVolt = nan ∧
      (c.apply data (.run refVolt)).motorEnable = nan := by
  rcases h with h | h <;>
    simp [apply, PIcontrol.compensateSignal, PIcontrol.I_signal, PIcontrol.P_signal, refError,
      adjustError, PwmOut.write, h]

/-- On a sample that is a number or an infinity the controller computes with numbers. -/
theorem Finite.apply_run (h : c.Finite) {Kp Ki x : ℚ} (hKp : c.picontrol.Kp = fin Kp)
    (hKi : c.picontrol.Ki = fin Ki) (hdata : data.1 ≠ nan) :
    (c.apply data (.run (fin x))).Finite := by
  obtain ⟨acc, hacc⟩ := h.accError_t
  obtain ⟨comp, hcomp⟩ := h.compVolt
  obtain ⟨y, hy⟩ := adjustError_finite (x := x) hdata
  constructor
  · simp [apply, PIcontrol.compensateSignal, PIcontrol.I_signal, hacc, hy, fin_div]
  · simp [apply, PIcontrol.compensateSignal, PIcontrol.I_signal, PIcontrol.P_signal, hacc, hcomp,
      hKp, hKi, hy, fin_div, ← apply_ite fin]
  · simp [apply, PIcontrol.compensateSignal, PIcontrol.I_signal, PIcontrol.P_signal, hacc, hcomp,
      hKp, hKi, hy, fin_div, ← apply_ite fin, write_fin]

theorem Finite.apply_stop (h : c.Finite) : (c.apply data .stop).Finite := by
  obtain ⟨comp, hcomp⟩ := h.compVolt
  refine ⟨h.accError_t, ?_, ?_⟩
  · simp [apply, hcomp, ← apply_ite fin]
  · simp [apply, hcomp, ← apply_ite fin, write_fin]

end MotorControl.Core

namespace Drive

/-- The references are numbers. -/
def References (_ : Drive (Extended ℚ)) : Event (Extended ℚ) → Prop
  | .call (.run refVolt) => ∃ x, refVolt = fin x
  | _ => True

/-- `run` does not act on a NaN. -/
def ReadsNumbers (d : Drive (Extended ℚ)) : Event (Extended ℚ) → Prop
  | .call (.run _) => d.Fresh → d.data.1 ≠ nan
  | _ => True

/-- The gains never change. -/
theorem step_gains {α : Type} [Arith α] (d : Drive α) (e : Event α) :
    (d.step e).motor.picontrol.Kp = d.motor.picontrol.Kp ∧
      (d.step e).motor.picontrol.Ki = d.motor.picontrol.Ki := by
  refine step_core_ind (P := fun c => c.picontrol.Kp = d.motor.picontrol.Kp ∧
    c.picontrol.Ki = d.motor.picontrol.Ki) d e ⟨rfl, rfl⟩ fun c _ _ => ?_
  cases c <;> exact ⟨rfl, rfl⟩

theorem start_picontrol {α : Type} [Arith α] (Kp Ki : α) (ratedRPM : ℕ) (data : SpeedData α) :
    (start Kp Ki ratedRPM data).motor.picontrol = PIcontrol.construct Kp Ki := by
  have hcore := congrArg Core.picontrol (construct_core Kp Ki ratedRPM data)
  refine hcore.trans ?_
  split_ifs <;> rfl

theorem finite_step_iff {d : Drive (Extended ℚ)} {Kp Ki : ℚ} (hKp : d.motor.picontrol.Kp = fin Kp)
    (hKi : d.motor.picontrol.Ki = fin Ki) (h : d.motor.core.Finite) {e : Event (Extended ℚ)}
    (he : d.References e) : (d.step e).motor.core.Finite ↔ d.ReadsNumbers e := by
  rcases e with ⟨speed, time⟩ | (refVolt | _)
  · exact iff_of_true h trivial
  · obtain ⟨x, rfl⟩ := he
    rw [step_call_core]
    split_ifs with hf
    · constructor
      · rintro hfinite - hnan
        obtain ⟨y, hy⟩ := hfinite.accError_t
        have hacc := (Core.apply_run_nan (c := d.motor.core) (fin x) (Or.inr hnan)).1
        cases hy.symm.trans hacc
      · exact fun hreads => h.apply_run hKp hKi (hreads hf)
    · exact iff_of_true h fun hfresh => absurd hfresh hf
  · rw [step_call_core]
    split_ifs with hf
    · exact iff_of_true h.apply_stop trivial
    · exact iff_of_true h trivial

theorem finite_start (Kp Ki : ℚ) (ratedRPM : ℕ) (data : SpeedData (Extended ℚ)) :
    (start (fin Kp) (fin Ki) ratedRPM data).motor.core.Finite := by
  have hinitial : (initial (fin Kp) (fin Ki) ratedRPM).core.Finite :=
    ⟨⟨0, rfl⟩, ⟨0, rfl⟩, ⟨0, rfl⟩⟩
  show (MotorControl.construct (fin Kp) (fin Ki) ratedRPM data).core.Finite
  rw [construct_core]
  split_ifs
  · exact hinitial.apply_stop
  · exact hinitial

/-- **The integral and the outputs stay finite exactly when `run` never acts on a NaN**, as far as
no number overflows: an infinite speed and its error, which are stored, are cut off before they get
there. -/
theorem finite_iff (Kp Ki : ℚ) (ratedRPM : ℕ) (data : SpeedData (Extended ℚ))
    {es : List (Event (Extended ℚ))}
    (hes : AllSteps step References (start (fin Kp) (fin Ki) ratedRPM data) es) :
    Always step (fun d => d.motor.core.Finite) (start (fin Kp) (fin Ki) ratedRPM data) es ↔
      AllSteps step ReadsNumbers (start (fin Kp) (fin Ki) ratedRPM data) es := by
  have hstart := start_picontrol (fin Kp) (fin Ki) ratedRPM data
  refine always_iff_allSteps (Q := fun d => d.motor.picontrol.Kp = fin Kp ∧
    d.motor.picontrol.Ki = fin Ki) hes ⟨by rw [hstart]; rfl, by rw [hstart]; rfl⟩
    (finite_start Kp Ki ratedRPM data) ?_ ?_
  · rintro d e ⟨hKp, hKi⟩ -
    obtain ⟨hKp', hKi'⟩ := step_gains d e
    exact ⟨hKp'.trans hKp, hKi'.trans hKi⟩
  · rintro d e ⟨hKp, hKi⟩ h he
    exact finite_step_iff hKp hKi h he

theorem finite_iff_applies :
    let es : List (Event (Extended ℚ)) :=
      [.sample posInf 100000, .call (.run (fin 1)), .sample nan 200000, .call .stop,
        .call (.run (fin 1))]
    Always step (fun d => d.motor.core.Finite)
        (start (fin (4 / 25)) (fin (1 / 100)) 24 (fin 0, 0)) es ↔
      AllSteps step ReadsNumbers (start (fin (4 / 25)) (fin (1 / 100)) 24 (fin 0, 0)) es :=
  finite_iff (4 / 25) (1 / 100) 24 (fin 0, 0)
    ⟨trivial, ⟨1, rfl⟩, trivial, trivial, ⟨1, rfl⟩, trivial⟩

/-- **A NaN that `run` has acted on stays for ever**: from then on the integral is a NaN, and so is
all that `run` hands to the motor. -/
theorem nan_forever {d : Drive (Extended ℚ)} (hfresh : d.Fresh) (hnan : d.data.1 = nan)
    (refVolt : Extended ℚ) (es : List (Event (Extended ℚ))) :
    let d' := exec step (d.step (.call (.run refVolt))) es
    d'.motor.picontrol.accError_t = nan ∧ (d'.Fresh → ∀ refVolt',
      (d'.step (.call (.run refVolt'))).motor.compVolt = nan ∧
        (d'.step (.call (.run refVolt'))).motor.motorEnable = nan) := by
  intro d'
  have hfirst : (d.step (.call (.run refVolt))).motor.core.picontrol.accError_t = nan := by
    rw [step_call_core_fresh hfresh]
    exact (Core.apply_run_nan refVolt (Or.inr hnan)).1
  have hacc : d'.motor.core.picontrol.accError_t = nan := by
    refine exec_invariant (P := fun d : Drive (Extended ℚ) =>
      d.motor.core.picontrol.accError_t = nan) hfirst (fun t e ht => ?_) es
    refine step_core_ind (P := fun c => c.picontrol.accError_t = nan) t e ht fun c _ _ => ?_
    cases c with
    | run refVolt => exact (Core.apply_run_nan refVolt (Or.inl ht)).1
    | stop => exact ht
  refine ⟨hacc, fun hfresh' refVolt' => ?_⟩
  have hcore := step_call_core_fresh hfresh' (.run refVolt')
  constructor
  · exact (congrArg Core.compVolt hcore).trans (Core.apply_run_nan refVolt' (Or.inl hacc)).2.1
  · exact (congrArg Core.motorEnable hcore).trans (Core.apply_run_nan refVolt' (Or.inl hacc)).2.2

theorem nan_forever_applies :
    let d : Drive (Extended ℚ) :=
      ⟨(nan, 200000), MotorControl.construct (fin (4 / 25)) (fin (1 / 100)) 24 (fin 0, 100000)⟩
    let d' := exec step (d.step (.call (.run (fin 1))))
      [.sample (fin 5) 300000, .call .stop, .sample (fin 4) 400000]
    d'.motor.picontrol.accError_t = nan ∧ (d'.Fresh → ∀ refVolt',
      (d'.step (.call (.run refVolt'))).motor.compVolt = nan ∧
        (d'.step (.call (.run refVolt'))).motor.motorEnable = nan) :=
  nan_forever (by decide +kernel) rfl (fin 1)
    [.sample (fin 5) 300000, .call .stop, .sample (fin 4) 400000]

end Drive

end NucleoMotor
