import NucleoMotor.Ticker

/-!
# `Timer`

`mbed-os/drivers/Timer.cpp`, a stopwatch on the microsecond ticker, with the lock that it holds
while it runs.  `now` is what `ticker_read_us` returns to a call.

A timer measures: whatever calls are made, it reads the number of microseconds since the last
`reset` at which it was running (`read_eq_card`).
-/

namespace NucleoMotor

/-- The fields of class `Timer`. -/
structure Timer where
  _running : Bool
  _start : ℕ
  _time : ℕ
  deriving DecidableEq, Repr

namespace Timer

def slicetime (t : Timer) (now : ℕ) : ℕ := if t._running then now - t._start else 0

def reset (t : Timer) (now : ℕ) : Timer := { t with _start := now, _time := 0 }

/-- The constructor. -/
def construct (now : ℕ) : Timer := ({ _running := false, _start := 0, _time := 0 } : Timer).reset now

/-- `start`, apart from the lock. -/
def start (t : Timer) (now : ℕ) : Timer :=
  if t._running then t else { t with _start := now, _running := true }

/-- `stop`, apart from the lock. -/
def stop (t : Timer) (now : ℕ) : Timer :=
  { t with _time := t._time + t.slicetime now, _running := false }

def read_high_resolution_us (t : Timer) (now : ℕ) : ℕ := t._time + t.slicetime now

inductive Call
  | start
  | stop
  | reset
  deriving DecidableEq, Repr

/-- A timer and the sleep manager's counter. -/
structure State where
  timer : Timer
  deep_sleep_lock : ℕ
  deriving DecidableEq, Repr

/-- A call at the time `c.2`. -/
def State.call (s : State) (c : Call × ℕ) : Option State :=
  match c.1 with
  | .start => do
    let deep_sleep_lock ← if s.timer._running then some s.deep_sleep_lock
      else sleep_manager_lock_deep_sleep s.deep_sleep_lock
    return ⟨s.timer.start c.2, deep_sleep_lock⟩
  | .stop => do
    let deep_sleep_lock ← if s.timer._running then
      sleep_manager_unlock_deep_sleep s.deep_sleep_lock else some s.deep_sleep_lock
    return ⟨s.timer.stop c.2, deep_sleep_lock⟩
  | .reset => some ⟨s.timer.reset c.2, s.deep_sleep_lock⟩

/-! ### What a timer measures -/

/-- Whether the timer runs after the call, `running` before it. -/
def after (running : Bool) : Call → Bool
  | .start => true
  | .stop => false
  | .reset => running

/-- Whether the timer runs at the time `τ`, by the calls made no later. -/
def runningAt (calls : List (Call × ℕ)) (τ : ℕ) : Bool :=
  calls.foldl (fun running c => if τ < c.2 then running else after running c.1) false

/-- No `reset` comes after `τ`. -/
def kept (calls : List (Call × ℕ)) (τ : ℕ) : Bool :=
  calls.all fun c => c.1 ≠ .reset ∨ c.2 ≤ τ

/-- The times before `now` that count. -/
def measured (calls : List (Call × ℕ)) (now : ℕ) : Finset ℕ :=
  (Finset.range now).filter fun τ => runningAt calls τ ∧ kept calls τ

variable {calls : List (Call × ℕ)} {c : Call} {n now τ : ℕ}

theorem runningAt_concat : runningAt (calls ++ [(c, n)]) τ =
    if τ < n then runningAt calls τ else after (runningAt calls τ) c := by
  simp [runningAt]

theorem kept_concat :
    kept (calls ++ [(c, n)]) τ = (kept calls τ && decide (c ≠ .reset ∨ n ≤ τ)) := by
  simp [kept]

theorem kept_of_le (h : ∀ c ∈ calls, c.2 ≤ n) (hτ : n ≤ τ) : kept calls τ := by
  simp only [kept, List.all_eq_true, decide_eq_true_eq]
  exact fun c hc => Or.inr ((h c hc).trans hτ)

/-- After the last call the timer runs or does not. -/
theorem runningAt_of_le (h : ∀ c ∈ calls, c.2 ≤ n) (hτ : n ≤ τ) :
    runningAt calls τ = runningAt calls n := by
  induction calls using List.reverseRecOn with
  | nil => rfl
  | append_singleton calls c ih =>
    have hc : c.2 ≤ n := h c (by simp)
    rw [runningAt_concat, runningAt_concat, if_neg (by omega), if_neg (by omega),
      ih fun c hc => h c (by simp [hc])]

/-- What one more call changes. -/
theorem card_measured_concat (h : ∀ c ∈ calls, c.2 ≤ n) (hnow : n ≤ now) :
    (measured (calls ++ [(c, n)]) now).card =
      (if c = .reset then 0 else (measured calls n).card) +
        if after (runningAt calls n) c then now - n else 0 := by
  simp only [measured, Finset.card_filter]
  rw [← Finset.sum_range_add_sum_Ico _ hnow]
  congr 1
  · split_ifs with hc
    · refine Finset.sum_eq_zero fun τ hτ => ?_
      have hlt : ¬ n ≤ τ := by simpa using hτ
      simp [kept_concat, hc, hlt]
    · refine Finset.sum_congr rfl fun τ hτ => ?_
      have hlt : τ < n := by simpa using hτ
      simp [runningAt_concat, kept_concat, hc, hlt]
  · have hsum : ∀ τ ∈ Finset.Ico n now,
        (if runningAt (calls ++ [(c, n)]) τ ∧ kept (calls ++ [(c, n)]) τ then 1 else 0) =
          if after (runningAt calls n) c then 1 else 0 := by
      intro τ hτ
      have hle : n ≤ τ := (Finset.mem_Ico.1 hτ).1
      have hlt : ¬ τ < n := by omega
      simp [runningAt_concat, kept_concat, hlt, hle, kept_of_le h hle, runningAt_of_le h hle]
    rw [Finset.sum_congr rfl hsum]
    simp

/-- What the fields of the timer say of the calls. -/
structure Measures (base : ℕ) (calls : List (Call × ℕ)) (s : State) : Prop where
  running : ∀ now, (∀ c ∈ calls, c.2 ≤ now) → runningAt calls now = s.timer._running
  start_le : s.timer._running → ∀ now, (∀ c ∈ calls, c.2 ≤ now) → s.timer._start ≤ now
  read : ∀ now, (∀ c ∈ calls, c.2 ≤ now) →
    s.timer.read_high_resolution_us now = (measured calls now).card
  lock : s.deep_sleep_lock = base + if s.timer._running then 1 else 0

variable {base : ℕ} {s s' : State}

theorem measures_construct (base now : ℕ) : Measures base [] ⟨construct now, base⟩ where
  running := fun _ _ => rfl
  start_le := by simp [construct, reset]
  read := fun now _ => by simp [read_high_resolution_us, slicetime, construct, reset, measured,
    runningAt]
  lock := by simp [construct, reset]

/-- The timer of a call that the sleep manager lets pass. -/
theorem Measures.call_spec (h : Measures base calls s) (hbase : base < 65535) :
    ∃ s', s.call (c, n) = some s' ∧
      s'.deep_sleep_lock = (base + if s'.timer._running then 1 else 0) ∧
      s'.timer = match c with
        | .start => s.timer.start n
        | .stop => s.timer.stop n
        | .reset => s.timer.reset n := by
  have hlock := h.lock
  cases c <;> cases hrunning : s.timer._running <;>
    simp [State.call, hrunning, sleep_manager_lock_deep_sleep, sleep_manager_unlock_deep_sleep,
      start, stop, reset, hlock, hbase.ne]

/-- **A call keeps the measure.** -/
theorem Measures.call (h : Measures base calls s) (hn : ∀ c ∈ calls, c.2 ≤ n)
    (hlock : s'.deep_sleep_lock = base + if s'.timer._running then 1 else 0)
    (htimer : s'.timer = match c with
      | .start => s.timer.start n
      | .stop => s.timer.stop n
      | .reset => s.timer.reset n) : Measures base (calls ++ [(c, n)]) s' := by
  have hlast : ∀ now, (∀ c' ∈ calls ++ [(c, n)], c'.2 ≤ now) → n ≤ now :=
    fun now hnow => hnow (c, n) (by simp)
  have hold : ∀ now, (∀ c' ∈ calls ++ [(c, n)], c'.2 ≤ now) → ∀ c' ∈ calls, c'.2 ≤ now :=
    fun now hnow c' hc' => hnow c' (by simp [hc'])
  have hafter : s'.timer._running = after s.timer._running c := by
    rw [htimer]
    cases c with
    | start => cases hrunning : s.timer._running <;> simp [start, after, hrunning]
    | stop => rfl
    | reset => rfl
  refine ⟨fun now hnow => ?_, fun hrunning now hnow => ?_, fun now hnow => ?_, hlock⟩
  · have hle := hlast now hnow
    rw [runningAt_concat, if_neg (by omega), h.running now (hold now hnow), hafter]
  · have hle := hlast now hnow
    rw [htimer]
    cases c with
    | start =>
      cases hrun : s.timer._running
      · simpa [start, hrun] using hle
      · simpa [start, hrun] using h.start_le hrun now (hold now hnow)
    | stop => simp [htimer, stop] at hrunning
    | reset => exact hle
  · have hle := hlast now hnow
    rw [card_measured_concat hn hle, ← h.read n hn, h.running n hn, htimer]
    cases hrun : s.timer._running with
    | false => cases c <;> simp [start, stop, reset, read_high_resolution_us, slicetime, after, hrun]
    | true =>
      have hstart := h.start_le hrun n hn
      cases c <;> simp [start, stop, reset, read_high_resolution_us, slicetime, after, hrun]
      omega

/-- **A timer reads the number of microseconds since its last reset at which it was running**, and
holds one lock of the sleep manager while it runs, whatever calls are made. -/
theorem read_eq_card (hbase : base < 65535) (now₀ : ℕ)
    (hsorted : calls.Pairwise fun c c' => c.2 ≤ c'.2) :
    ∃ s, Fallible.run State.call ⟨construct now₀, base⟩ calls = some s ∧
      s.deep_sleep_lock = (base + if s.timer._running then 1 else 0) ∧
      ∀ now, (∀ c ∈ calls, c.2 ≤ now) →
        s.timer.read_high_resolution_us now = (measured calls now).card := by
  suffices hrun : ∃ s, Fallible.run State.call ⟨construct now₀, base⟩ calls = some s ∧
      Measures base calls s by
    obtain ⟨s, hrun, h⟩ := hrun
    exact ⟨s, hrun, h.lock, h.read⟩
  induction calls using List.reverseRecOn with
  | nil => exact ⟨_, rfl, measures_construct base now₀⟩
  | append_singleton calls c ih =>
    obtain ⟨hcalls, -, hn⟩ := List.pairwise_append.1 hsorted
    obtain ⟨s, hrun, h⟩ := ih hcalls
    obtain ⟨s', hcall, hlock, htimer⟩ := h.call_spec (c := c.1) (n := c.2) hbase
    refine ⟨s', ?_, h.call (fun c' hc' => hn c' hc' c (by simp)) hlock htimer⟩
    rw [Fallible.run_append, hrun]
    simp [hcall]

theorem read_eq_card_applies :
    let calls : List (Call × ℕ) :=
      [(.start, 10), (.stop, 13), (.start, 20), (.reset, 22), (.start, 23)]
    ∃ s, Fallible.run State.call ⟨construct 5, 7⟩ calls = some s ∧
      s.deep_sleep_lock = (7 + if s.timer._running then 1 else 0) ∧
      ∀ now, (∀ c ∈ calls, c.2 ≤ now) →
        s.timer.read_high_resolution_us now = (measured calls now).card :=
  read_eq_card (by decide) 5 (by decide)

end Timer

end NucleoMotor
