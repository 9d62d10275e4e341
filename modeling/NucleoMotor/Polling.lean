import NucleoMotor.Rig
import NucleoMotor.Lib.Latch

/-!
# The polling rate is invisible

The timestamps make a latch of the encoder and the controller: `saveData` publishes a sample, the
first call of `run` or `stop` after it takes the sample, and later calls find nothing new
(`latch_exec`).  So the control state after each interval between two samples is a function of the
samples and of the first call in each interval (`extra_polls_invisible`).
-/

namespace NucleoMotor

open MotorControl Runs

variable {α : Type} [Arith α]

/-! ### The drive as a latch -/

def Event.latch : Event α → Latch.Event (SpeedData α) (Call α)
  | .sample speed time => .publish (speed, time)
  | .call c => .poll c

namespace Drive

/-- The control state, and the sample that no call has used. -/
def latch (d : Drive α) : Latch.State (SpeedData α) (Core α) :=
  ⟨d.motor.core, if d.Fresh then some d.data else none⟩

omit [Arith α] in
theorem latch_of_fresh {d : Drive α} (h : d.Fresh) : d.latch = ⟨d.motor.core, some d.data⟩ := by
  rw [latch, if_pos h]

omit [Arith α] in
theorem latch_of_settled {d : Drive α} (h : d.Settled) : d.latch = ⟨d.motor.core, none⟩ := by
  rw [latch, if_neg (fun hf : d.Fresh => absurd hf (not_lt.2 h.ge))]

theorem latch_step {d : Drive α} (h : d.motor.prevTime ≤ d.data.2) {e : Event α}
    (he : d.Clocked e) : (d.step e).latch = Latch.step Core.apply d.latch e.latch := by
  cases e with
  | sample speed time =>
    -- `prevTime` is at most the old timestamp, which is below the new one
    have hfresh : (d.step (.sample speed time)).Fresh := lt_of_le_of_lt h he
    rw [latch_of_fresh hfresh]
    rfl
  | call c =>
    by_cases hf : d.Fresh
    · -- the call uses the sample
      have hcore := step_call_core_fresh hf c
      have hsettled : (d.step (.call c)).Settled := by
        have htime := congrArg Core.prevTime hcore
        rwa [Core.apply_prevTime] at htime
      rw [latch_of_fresh hf, latch_of_settled hsettled, hcore]
      rfl
    · -- nothing new: the slot is empty before and after
      have hcore := step_call_core_stale hf c
      have hsettled : d.Settled := le_antisymm h (not_lt.1 hf)
      have hsettled' : (d.step (.call c)).Settled :=
        (congrArg Core.prevTime hcore).trans hsettled
      rw [latch_of_settled hsettled, latch_of_settled hsettled', hcore]
      rfl

/-- **With increasing timestamps the controller is a latch for the samples.** -/
theorem latch_exec {d : Drive α} (h : d.motor.prevTime ≤ d.data.2) {es : List (Event α)}
    (hes : AllSteps step Clocked d es) :
    (exec step d es).latch = exec (Latch.step Core.apply) d.latch (es.map Event.latch) := by
  have hmap (d : Drive α) (es : List (Event α)) :
      image step (fun _ e => [e.latch]) d es = es.map Event.latch := by
    induction es generalizing d with
    | nil => rfl
    | cons e es ih => exact congrArg (e.latch :: ·) (ih _)
  rw [← hmap d es]
  exact exec_image hes h (fun _ _ hd he => prevTime_step hd he) fun _ _ hd he => latch_step hd he

/-- The timestamps of the samples increase. -/
theorem rounds_pairwise {d : Drive α} {es : List (Event α)} (hes : AllSteps step Clocked d es) :
    (d.data.2 :: (Latch.rounds (es.map Event.latch)).map fun r => r.1.2).Pairwise (· < ·) := by
  induction es generalizing d with
  | nil => simp [Latch.rounds]
  | cons e es ih =>
    have hrest := ih hes.2
    cases e with
    | call c => exact hrest
    | sample speed time =>
      have hlt : d.data.2 < time := hes.1
      refine List.pairwise_cons.2 ⟨fun t ht => ?_, hrest⟩
      rcases List.mem_cons.1 ht with rfl | ht
      · exact hlt
      · exact hlt.trans (List.rel_of_pairwise_cons hrest ht)

/-- The timestamps of the samples that the calls of a run acted on: such a call is one
`Core.apply` on the sample (`step_call_core_fresh`), every other leaves the control state alone
(`step_call_core_stale`). -/
def acted : Drive α → List (Event α) → List ℤ :=
  image step fun d e => match e with
    | .sample _ _ => []
    | .call _ => if d.Fresh then [d.data.2] else []

theorem acted_eq {d : Drive α} (h : d.motor.prevTime ≤ d.data.2) {es : List (Event α)}
    (hes : AllSteps step Clocked d es) :
    d.acted es = (Latch.taken Core.apply d.latch (es.map Event.latch)).map Prod.snd := by
  induction es generalizing d with
  | nil => rfl
  | cons e es ih =>
    have hrest := ih (prevTime_step h hes.1) hes.2
    rw [latch_step h hes.1] at hrest
    simp only [acted, Latch.taken, List.map_cons, image] at hrest ⊢
    rw [hrest, List.map_append]
    congr 1
    cases e with
    | sample speed time => rfl
    | call c => by_cases hf : d.Fresh <;> simp [Event.latch, latch, hf]

end Drive

namespace Rig

/-! ### Intervals between samples -/

/-- The samples of a run, each with the first call before the next one. -/
def intervals (r : Rig α) (es : List (RigEvent α)) : List (SpeedData α × Option (Call α)) :=
  Latch.rounds ((r.events es).map Event.latch)

def isSaveData : RigEvent α → Bool
  | .interrupt (.saveData _) => true
  | _ => false

/-- The events of the first `n` intervals: those before tick `n + 1`. -/
def through (n : ℕ) (es : List (RigEvent α)) : List (RigEvent α) := cut isSaveData n es

/-- The two rigs have the same control state. -/
structure Agree (r r' : Rig α) : Prop where
  compVolt : r.motor.compVolt = r'.motor.compVolt
  prevTime : r.motor.prevTime = r'.motor.prevTime
  accError_t : r.motor.picontrol.accError_t = r'.motor.picontrol.accError_t
  motorEnable : r.motor.motorEnable = r'.motor.motorEnable

theorem intervals_through (r : Rig α) (n : ℕ) (es : List (RigEvent α)) :
    r.intervals (through n es) = (r.intervals es).take n := by
  have hevents : r.events (through n es) =
      cut (fun e => Latch.Event.isPublish (Event.latch e)) n (r.events es) := by
    refine image_cut (fun r e he => ?_) (fun r e he => ?_) r n es
    · rcases e with (_ | currentTime) | c
      · simp [isSaveData] at he
      · exact ⟨_, rfl, rfl⟩
      · simp [isSaveData] at he
    · rcases e with (_ | currentTime) | c
      · simp [observe]
      · simp [isSaveData] at he
      · simp [observe, Event.latch, Latch.Event.isPublish]
  rw [intervals, hevents, map_cut, Latch.rounds_cut, intervals]

/-- The control state after a run from construction depends on its intervals only. -/
theorem core_congr {r : Rig α} (h : r.drive.Settled) {es es' : List (RigEvent α)}
    (hes : AllSteps step Clocked r es) (hes' : AllSteps step Clocked r es')
    (hint : r.intervals es = r.intervals es') :
    (exec step r es).motor.core = (exec step r es').motor.core := by
  have hvalue (es : List (RigEvent α)) (hes : AllSteps step Clocked r es) :
      (exec step r es).motor.core =
        (exec (Latch.step Core.apply) ⟨r.motor.core, none⟩ ((r.events es).map Event.latch)).value := by
    have hlatch := Drive.latch_exec h.le (clocked_events hes)
    rw [← drive_exec, Drive.latch_of_settled h] at hlatch
    exact congrArg Latch.State.value hlatch
  rw [hvalue es hes, hvalue es' hes']
  exact Latch.value_congr Core.apply hint _

/-- The timestamps of the samples that the calls of a run acted on. -/
def acted (r : Rig α) (es : List (RigEvent α)) : List ℤ := r.drive.acted (r.events es)

/-- **Extra polling is invisible.**  Two runs of an encoder and its controller from construction
whose first `n` intervals show the same samples and the same first calls agree after them; and a
run acts on every sample once if there is a call in its interval, and never otherwise. -/
theorem extra_polls_invisible (pulsePerRotation : ℕ) (samplingRate : α) (encodeType : EncodeType)
    (before : List EncodedMotor.Interrupt) (Kp Ki : α) (ratedRPM : ℕ) (es es' : List (RigEvent α)) :
    let r := start pulsePerRotation samplingRate encodeType before Kp Ki ratedRPM
    AllSteps step Clocked r es → AllSteps step Clocked r es' →
      (∀ n, (r.intervals es).take n = (r.intervals es').take n →
        Agree (exec step r (through n es)) (exec step r (through n es'))) ∧
      ∀ i ∈ r.intervals es, (r.acted es).count i.1.2 = if i.2.isSome then 1 else 0 := by
  intro r hes hes'
  have hsettled : r.drive.Settled := settled_start _ _ _ _ _ _ _
  refine ⟨fun n hn => ?_, fun i hi => ?_⟩
  · rw [← intervals_through, ← intervals_through] at hn
    have hcore := core_congr hsettled (hes.cut isSaveData n) (hes'.cut isSaveData n) hn
    exact ⟨congrArg Core.compVolt hcore, congrArg Core.prevTime hcore,
      congrArg (fun c => c.picontrol.accError_t) hcore, congrArg Core.motorEnable hcore⟩
  · have hclocked := clocked_events hes
    have hnodup : ((r.intervals es).map fun i => i.1.2).Nodup :=
      (List.pairwise_cons.1 (Drive.rounds_pairwise hclocked)).2.imp fun h => h.ne
    have hacted : r.acted es = ((r.intervals es).filterMap Latch.polled).map Prod.snd := by
      rw [acted, Drive.acted_eq hsettled.le hclocked, Drive.latch_of_settled hsettled,
        Latch.taken_exec]
      rfl
    rw [hacted]
    exact Latch.count_polled Prod.snd hnodup hi

/-- Two samples, the first one polled once in one run and at every turn in the other. -/
theorem extra_polls_invisible_applies :
    let r : Rig ℚ := start 7392 10 .X4 [.incrementPulse] (4 / 25) (1 / 100) 24
    let es : List (RigEvent ℚ) := [.interrupt (.saveData 100000), .call (.run 1),
      .interrupt .incrementPulse, .interrupt (.saveData 200000), .call (.run (1 / 2)),
      .interrupt (.saveData 300000)]
    let es' : List (RigEvent ℚ) := [.call (.run 1), .interrupt (.saveData 100000), .call (.run 1),
      .call .stop, .interrupt .incrementPulse, .call (.run 0), .interrupt (.saveData 200000),
      .call (.run (1 / 2)), .call .stop]
    Agree (exec step r (through 2 es)) (exec step r (through 2 es')) ∧
      (r.acted es').count 100000 = 1 := by
  intro r es es'
  have hes : AllSteps step Clocked r es := by decide +kernel
  have hes' : AllSteps step Clocked r es' := by decide +kernel
  refine ⟨?_, ?_⟩
  · exact (extra_polls_invisible 7392 10 .X4 [.incrementPulse] (4 / 25) (1 / 100) 24 es es'
      hes hes').1 2 (by decide +kernel)
  · exact (extra_polls_invisible 7392 10 .X4 [.incrementPulse] (4 / 25) (1 / 100) 24 es' es
      hes' hes).2 ((1000000 / (7392 * 1666), 100000), some (.run 1))
        (List.mem_of_getElem? (i := 0) (by decide +kernel))

end Rig

end NucleoMotor
