import NucleoMotor.TickerProgress

/-!
# Runs of the tickers

What holds after any run of the main program with the ticker's interrupt, whatever the attached
functions do and however long the code takes.
-/

namespace NucleoMotor

namespace Tickers

open Agenda

variable {α β γ : Type} [DecidableEq α] [Fintype α] {C : Command α β γ → Prop}
  {code : β → List (Command α β γ)} {fuel : ℕ} {s s' : Tickers α β γ} {order : List α}
  {interface : Counter} {event : α → TickerEvent α} {delay : α → ℕ} {base : ℕ} {world : γ}
  {es : List (Occurrence α β γ)}

/-- A state of the tickers with its list. -/
structure Reached (base : ℕ) (s : Tickers α β γ) (order : List α) : Prop where
  lists : s.data.Lists order
  sound : (s.plan order).Sound base
  timely : (s.plan order).Timely

theorem reached_run (hrun : Fallible.run (step code fuel) (start interface event delay base world)
    es = some s) : ∃ order, Reached base s order := by
  obtain ⟨order, hlists, hplan⟩ := run_refines (C := fun _ => True) (fun _ _ _ => trivial)
    (lists_start interface event delay base world) (sound_start interface event delay base world)
    (fun e _ => by cases e <;> trivial) hrun
  exact ⟨order, hlists, hplan.sound (sound_start ..), hplan.timely (sound_start ..)
    (timely_start ..)⟩

/-- Two tickers on a counter of 32 bits that counts microseconds. -/
def two_tickers : Tickers Bool Unit ℕ :=
  start ⟨1000000, 32, 0, 0, none, []⟩ (fun i => ⟨0, i, none⟩) (fun _ => 0) 0 0

/-! ### The time -/

/-- What holds of the clock in every state of a run on the counter `interface`. -/
structure Counted (interface : Counter) (base : ℕ) (s : Tickers α β γ) (order : List α) :
    Prop where
  reached : Reached base s order
  calibrated : s.data.clock.Calibrated
  bits : s.data.clock.interface.bits = interface.bits
  frequency : s.data.clock.frequency = interface.frequency
  counts : s.data.clock.Counts interface.lag.now

theorem Counted.step (h : Counted interface base s order) {e : Occurrence α β γ}
    (hstep : step code fuel s e = some s') : ∃ order', Counted interface base s' order' := by
  obtain ⟨i, order', hbits, hnow, hgoes⟩ := step_goes (C := fun _ => True) (fun _ _ _ => trivial)
    h.reached.lists h.reached.sound (by cases e <;> trivial) hstep
  have hc : (s.setInterface i).data.clock.Calibrated := h.calibrated.interface hbits
  refine ⟨order', ⟨hgoes.lists, hgoes.plan.sound h.reached.sound,
    hgoes.plan.timely h.reached.sound h.reached.timely⟩, hgoes.clock.calibrated hc, ?_, ?_,
    hgoes.clock.counts hc (h.counts.interface hbits hnow)⟩
  · exact (hgoes.clock.later.bits.trans hbits).trans h.bits
  · exact hgoes.clock.frequency_eq.trans h.frequency

omit [DecidableEq α] [Fintype α] in
theorem counted_start (hvalid : TickerClock.Valid interface) :
    Counted interface base (start (β := β) interface event delay base world) [] := by
  have hinit := TickerClock.evolves_initializeQueue hvalid
  have hc := TickerClock.calibrated_fresh hvalid
  exact ⟨⟨lists_start .., sound_start .., timely_start ..⟩, hinit.calibrated hc,
    hinit.later.bits.trans interface.later_lag.bits, hinit.frequency_eq,
    hinit.counts hc ⟨_, 0, TickerClock.reads_fresh hvalid, le_rfl, rfl⟩⟩

/-- **The present time is that of the ticks counted**, with no error that grows with the number of
readings.  `seen` is the tick of the last reading: the next one counts the ticks since then, and
only whole rounds of the counter are ever lost. -/
theorem counted_of_run (hvalid : TickerClock.Valid interface)
    (hrun : Fallible.run (step code fuel) (start interface event delay base world) es = some s) :
    ∃ seen counted, seen ≤ s.data.clock.interface.now ∧
      s.data.clock.tick_last_read = Wrap.shown 32 interface.bits seen ∧
      interface.lag.now + counted ≤ seen ∧
      (interface.lag.now + counted) % 2 ^ interface.bits = seen % 2 ^ interface.bits ∧
      s.data.clock.present_time = counted * 1000000 / interface.frequency ∧
      ∀ lags, let (time, data) := (s.enter lags).data.ticker_read_us
        time = (counted + (data.clock.interface.now - seen) % 2 ^ interface.bits) * 1000000 /
          interface.frequency := by
  obtain ⟨order, h⟩ := Fallible.run_invariant (P := fun s => ∃ order, Counted interface base s order)
    hrun ⟨[], counted_start hvalid⟩ fun _ _ _ ⟨_, h⟩ hstep => h.step hstep
  obtain ⟨seen, counted, hreads, hle, hmod⟩ := h.counts
  refine ⟨seen, counted, hreads.le_now, ?_, hle, ?_, ?_, fun lags => ?_⟩
  · rw [hreads.last, h.bits]
  · rwa [h.bits] at hmod
  · rw [hreads.present_time_eq, h.frequency]
  · have henter : (s.enter lags).data.clock.Calibrated := h.calibrated.interface rfl
    have hsame : (s.enter lags).data.clock.Reads seen counted := hreads.interface rfl le_rfl
    have hread := hsame.update henter
    have htime : (s.enter lags).data.clock.update_present_time.present_time =
        (counted + ((s.enter lags).data.clock.interface.lag.now - seen) % 2 ^ interface.bits) *
          1000000 / interface.frequency := by
      rw [← h.frequency, ← h.bits, hread.present_time_eq, (TickerClock.update_frame _).1]
      rfl
    rw [← TickerClock.update_interface] at htime
    exact htime

/-- A counter of 4 bits and 32768 Hz goes round while nobody looks. -/
theorem counted_of_run_applies :
    ∃ s : Tickers Bool Unit ℕ, Fallible.run (step (fun _ => [.act (· + 1)]) 9)
        (start ⟨32768, 4, 0, 0, none, []⟩ (fun i => ⟨0, i, none⟩) (fun _ => 0) 0 0)
        [.elapse 21, .command (.attach_us true () 100) [1, 0, 1], .elapse 40, .interrupt [1]] =
          some s ∧
      ∃ seen counted, seen ≤ s.data.clock.interface.now ∧
        s.data.clock.tick_last_read = Wrap.shown 32 4 seen ∧ 0 + counted ≤ seen ∧
        (0 + counted) % 2 ^ 4 = seen % 2 ^ 4 ∧
        s.data.clock.present_time = counted * 1000000 / 32768 ∧
        ∀ lags, let (time, data) := (s.enter lags).data.ticker_read_us
          time = (counted + (data.clock.interface.now - seen) % 2 ^ 4) * 1000000 / 32768 :=
  (Option.isSome_iff_exists.1 (by decide +kernel)).imp fun _ hrun =>
    ⟨hrun, counted_of_run (by decide) hrun⟩

/-! ### The list and the locks -/

/-- **The list is the agenda of the attached tickers**: it ends, it holds each of them once, in the
order of their timestamps, and each holds one lock of the sleep manager. -/
theorem list_of_run (hrun : Fallible.run (step code fuel)
    (start interface event delay base world) es = some s) :
    ∃ order, Linked.Chain s.data.next s.data.head order ∧ order.Nodup ∧
      Sorted s.data.timestamp order ∧ (∀ i, i ∈ order ↔ (s.ticker i).function.isSome) ∧
      s.deep_sleep_lock = base + order.length := by
  obtain ⟨order, h⟩ := reached_run hrun
  exact ⟨order, h.lists.chain, h.sound.nodup, h.sound.sorted, h.sound.attached, h.sound.lock⟩

theorem list_of_run_applies :
    ∃ s, Fallible.run (step (fun _ => [.act (· + 1)]) 9) two_tickers
        [.command (.attach_us true () 3) [1, 0, 1], .command (.attach_us false () 2) [], .elapse 5,
          .interrupt [1]] = some s ∧
      ∃ order, Linked.Chain s.data.next s.data.head order ∧ order.Nodup ∧
        Sorted s.data.timestamp order ∧ (∀ i, i ∈ order ↔ (s.ticker i).function.isSome) ∧
        s.deep_sleep_lock = 0 + order.length :=
  (Option.isSome_iff_exists.1 (by decide +kernel)).imp fun _ hrun => ⟨hrun, list_of_run hrun⟩

/-! ### The calls -/

/-- **No call is early, and calls are made in the order they were due.** -/
theorem calls_of_run (hrun : Fallible.run (step code fuel)
    (start interface event delay base world) es = some s) :
    (∀ c ∈ s.calls, c.timestamp ≤ c.present_time) ∧
      s.calls.Pairwise fun c c' =>
        c'.timestamp ≤ c.timestamp ∧ c'.present_time ≤ c.present_time := by
  obtain ⟨order, h⟩ := reached_run hrun
  exact ⟨fun c hc => (h.timely.due c hc).1, h.timely.sorted⟩

theorem calls_of_run_applies :
    ∃ s, Fallible.run (step (fun _ => [.act (· + 1)]) 9) two_tickers
        [.command (.attach_us true () 3) [1, 0, 1], .command (.attach_us false () 2) [], .elapse 5,
          .interrupt [1]] = some s ∧
      (∀ c ∈ s.calls, c.timestamp ≤ c.present_time) ∧
        s.calls.Pairwise fun c c' =>
          c'.timestamp ≤ c.timestamp ∧ c'.present_time ≤ c.present_time :=
  (Option.isSome_iff_exists.1 (by decide +kernel)).imp fun _ hrun => ⟨hrun, calls_of_run hrun⟩

/-! ### Every run goes through -/

section Returns

variable {P A d : ℕ} (hcap : Capacity α base) (hcode : ∀ func, ∀ c ∈ code func, C c)
  (hC : ∀ i func t, C (.attach_us i func t) → P ≤ t)
  (hA : ∀ func, roundAccesses (code func) ≤ A)
  (hload : Fintype.card α * (A * d) * 1000000 < P * interface.frequency)
include hcap hcode hC hA hload

/-- What takes place comes to an end. -/
theorem Counted.step_returns (h : Counted interface base s order) (hP : (s.plan order).PeriodsGe P)
    (e : Occurrence α β γ) (hlags : ∀ lags, e = .interrupt lags → ∀ x ∈ lags, x ≤ d) :
    ∃ fuel₀ s', ∀ fuel, fuel₀ ≤ fuel → Tickers.step code fuel s e = some s' := by
  cases e with
  | elapse d => exact ⟨0, _, fun fuel _ => rfl⟩
  | command c lags =>
    obtain ⟨s', hc⟩ := command_total hcap (s := s.enter lags) (h.reached.lists.clock _)
      h.reached.sound (c := c)
    exact ⟨0, s', fun fuel _ => hc⟩
  | interrupt lags =>
    have hpos : 0 < P * interface.frequency - Fintype.card α * (A * d) * 1000000 := by omega
    have hfrequency : (s.enter lags).data.clock.frequency = interface.frequency := h.frequency
    obtain ⟨s', -, -, hirq⟩ := interrupt_total (m := 0) (N := Fintype.card α *
        (((s.enter lags).data.clock.interface.now - interface.lag.now + d) * 1000000 +
          P * interface.frequency - 0 * interface.frequency))
      hcap hcode hC hA (s := s.enter lags) (h.reached.lists.clock _) h.reached.sound hP
      (h.calibrated.interface rfl) (h.counts.interface rfl le_rfl) (hlags lags rfl)
      (fun _ _ => Nat.zero_le _) (Nat.zero_le _) (by
        rw [hfrequency]
        exact (Nat.lt_succ_self _).trans_le (Nat.le_mul_of_pos_right _ hpos))
    exact ⟨_, s', fun fuel hfuel => hirq fuel hfuel⟩

theorem Counted.returns (h : Counted interface base s order) (hP : (s.plan order).PeriodsGe P)
    (hes : ∀ e ∈ es, Runs C e) (hlags : ∀ lags, .interrupt lags ∈ es → ∀ x ∈ lags, x ≤ d) :
    ∃ s' fuel₀ order', (∀ fuel, fuel₀ ≤ fuel →
      Fallible.run (Tickers.step code fuel) s es = some s') ∧ Counted interface base s' order' ∧
        (s'.plan order').PeriodsGe P := by
  induction es generalizing s order with
  | nil => exact ⟨s, 0, order, fun fuel _ => rfl, h, hP⟩
  | cons e es ih =>
    obtain ⟨fuel₁, s₁, hstep⟩ := h.step_returns hcap hcode hC hA hload hP e (by
      rintro lags rfl
      exact hlags lags (by simp))
    obtain ⟨order₁, h₁⟩ := h.step (hstep fuel₁ le_rfl)
    obtain ⟨order₁', -, hplan⟩ := step_refines hcode h.reached.lists h.reached.sound
      (hes e (by simp)) (hstep fuel₁ le_rfl)
    have hP₁ : (s₁.plan order₁).PeriodsGe P := hplan.periodsGe hP hC
    obtain ⟨s', fuel₂, order', hrun, h', hP'⟩ := ih h₁ hP₁ (fun e he => hes e (by simp [he]))
      fun lags hmem => hlags lags (by simp [hmem])
    refine ⟨s', max fuel₁ fuel₂, order', fun fuel hfuel => ?_, h', hP'⟩
    rw [Fallible.run_cons, hstep fuel (le_of_max_le_left hfuel)]
    exact hrun fuel (le_of_max_le_right hfuel)

end Returns

/-- **Every run goes through**: no loop over the list runs for ever, the sleep manager never stops
the program, and the interrupt returns, if there are locks for all tickers and all their functions
together take less than the shortest period `P`, each with no more than `A` accesses to the counter
and no more than `d` ticks before each.  An interrupt then makes no more than `N` calls, a number
that depends on how long the tickers have been due and not on how long time goes on to pass: it
returns before it comes to the end of a longer list `lags`. -/
theorem run_total {P A d : ℕ} (hvalid : TickerClock.Valid interface)
    (hcap : base + Fintype.card α ≤ 65535)
    (hload : Fintype.card α * (A * d) * 1000000 < P * interface.frequency)
    (hcode : ∀ func, roundAccesses (code func) ≤ A ∧
      ∀ i g t, .attach_us i g t ∈ code func → P ≤ t)
    (hes : ∀ i g t lags, .command (.attach_us i g t) lags ∈ es → P ≤ t)
    (hlags : ∀ lags, .interrupt lags ∈ es → ∀ x ∈ lags, x ≤ d) :
    ∃ s fuel₀, (∀ fuel, fuel₀ ≤ fuel →
        Fallible.run (step code fuel) (start interface event delay base world) es = some s) ∧
      ∀ m N, (∀ i, (s.ticker i).function.isSome → m ≤ s.data.timestamp i) →
        m ≤ s.data.clock.present_time + P →
        Fintype.card α * ((s.data.clock.interface.now - interface.lag.now + d) * 1000000 +
            P * interface.frequency - m * interface.frequency) <
          (N + 1) * (P * interface.frequency - Fintype.card α * (A * d) * 1000000) →
        ∀ lags, (∀ x ∈ lags, x ≤ d) → ∃ s', s'.calls.length ≤ s.calls.length + N ∧
          lags.length ≤ N * A + 4 + s'.data.clock.interface.lags.length ∧
          ∀ fuel, N < fuel → step code fuel s (.interrupt lags) = some s' := by
  have hC : ∀ (i : α) (func : β) (t : ℕ), (∀ j g t', Command.attach_us (γ := γ) i func t =
      .attach_us j g t' → P ≤ t') → P ≤ t := fun i func t h => h i func t rfl
  have hcode' : ∀ func, ∀ c ∈ code func, ∀ i g t, c = .attach_us i g t → P ≤ t := by
    rintro func c hc i g t rfl
    exact (hcode func).2 i g t hc
  have hes' : ∀ e ∈ es, Runs (fun c => ∀ i g t, c = .attach_us i g t → P ≤ t) e := by
    intro e he
    cases e with
    | command c lags =>
      rintro i g t rfl
      exact hes i g t lags he
    | _ => trivial
  have hA : ∀ func, roundAccesses (code func) ≤ A := fun func => (hcode func).1
  obtain ⟨s, fuel₀, order, hrun, h, hP⟩ := (counted_start hvalid).returns hcap hcode' hC hA hload
    (fun i hi => by simp [plan, start] at hi) hes' hlags
  refine ⟨s, fuel₀, hrun, fun m N horder hm hN lags hlags => ?_⟩
  rw [← h.frequency] at hN
  obtain ⟨s', hcalls, hspent, hirq⟩ := interrupt_total hcap hcode' hC hA (s := s.enter lags)
    (h.reached.lists.clock _) h.reached.sound hP (h.calibrated.interface rfl)
    (h.counts.interface rfl le_rfl) hlags
    (fun i hi => horder i ((h.reached.sound.attached i).1 hi)) hm hN
  exact ⟨s', hcalls, hspent.length_le, hirq⟩

/-- One function attaches the other ticker anew each time, in up to 13 µs of its 40. -/
theorem run_total_applies :
    ∃ s fuel₀, (∀ fuel, fuel₀ ≤ fuel →
        Fallible.run (step (fun _ => [.attach_us false () 40]) fuel) two_tickers
          [.command (.attach_us true () 50) [1, 0, 1], .elapse 70, .interrupt [1]] = some s) ∧
      ∀ m N, (∀ i, (s.ticker i).function.isSome → m ≤ s.data.timestamp i) →
        m ≤ s.data.clock.present_time + 40 →
        Fintype.card Bool * ((s.data.clock.interface.now - 0 + 1) * 1000000 +
            40 * 1000000 - m * 1000000) <
          (N + 1) * (40 * 1000000 - Fintype.card Bool * (13 * 1) * 1000000) →
        ∀ lags, (∀ x ∈ lags, x ≤ 1) → ∃ s', s'.calls.length ≤ s.calls.length + N ∧
          lags.length ≤ N * 13 + 4 + s'.data.clock.interface.lags.length ∧
          ∀ fuel, N < fuel →
            step (fun _ => [.attach_us false () 40]) fuel s (.interrupt lags) = some s' :=
  run_total (P := 40) (A := 13) (d := 1) (by decide) (by decide) (by decide)
    (by simp [roundAccesses, Command.accesses]) (by simp) (by simp)

/-- A period of 3 µs is too short for a round of the loop that takes a microsecond for each access:
the loop is still not done after 30 calls. -/
example : (Fallible.run (step (fun _ => []) 30) two_tickers [.command (.attach_us true () 3) [],
    .elapse 5, .interrupt (List.replicate 100 1)]).isNone := by
  decide +kernel

/-! ### Periods -/

/-- The times at which the calls of `i` were due, the latest first. -/
def callsOf (s : Tickers α β γ) (i : α) : List ℕ :=
  (s.calls.filter fun c => c.ticker = i).map TickerCall.timestamp

/-- When the loop of the interrupt is done, nothing on the agenda is due. -/
theorem dispatch_done (hcode : ∀ func, ∀ c ∈ code func, C c) (h : s.data.Lists order)
    (hs : (s.plan order).Sound base) (hdispatch : dispatch code fuel s = some s') :
    ∃ order', Goes C s order s' order' ∧
      (∀ i ∈ order', s'.data.clock.present_time < s'.data.timestamp i) ∧
      if order = [] then s' = s ∧ order' = [] else Goes C s.update_present_time order s' order' := by
  induction fuel generalizing s order with
  | zero => cases hdispatch
  | succ fuel ih =>
    rw [dispatch, h.head_eq] at hdispatch
    cases order with
    | nil =>
      obtain rfl : s = s' := Option.some.inj hdispatch
      exact ⟨[], .refl h, by simp, by simp⟩
    | cons p rest =>
      have hupdate := goes_clock (C := C) h (TickerClock.evolves_update s.data.clock)
      dsimp only [List.head?_cons] at hdispatch
      split_ifs at hdispatch with hdue
      · obtain ⟨s₁, hhandler, hdispatch⟩ := Option.bind_eq_some_iff.1 hdispatch
        obtain ⟨order₁, hgoes⟩ := handler_goes hcode (s := s.update_present_time) hupdate.lists
          (hupdate.plan.sound hs) hdue hhandler
        obtain ⟨order', hgoes', hdone, -⟩ :=
          ih hgoes.lists ((hupdate.trans hgoes).plan.sound hs) hdispatch
        refine ⟨order', (hupdate.trans hgoes).trans hgoes', hdone, ?_⟩
        rw [if_neg (List.cons_ne_nil _ _)]
        exact hgoes.trans hgoes'
      · obtain rfl := Option.some.inj hdispatch
        refine ⟨_, hupdate, fun i hi => ?_, ?_⟩
        · exact (not_le.1 hdue).trans_le (h.sorted.head_le hi)
        · rw [if_neg (List.cons_ne_nil _ _)]
          exact .refl hupdate.lists

/-- The interrupt's last look at the clock, after which it returns. -/
theorem ticker_irq_handler_done (hcode : ∀ func, ∀ c ∈ code func, C c) (h : s.data.Lists order)
    (hs : (s.plan order).Sound base) (hirq : s.ticker_irq_handler code fuel = some s')
    (hne : order ≠ []) :
    ∃ look order', s.clear_interrupt.data.clock.update_present_time.present_time ≤ look ∧
      look ≤ s'.data.clock.present_time ∧ s'.data.Lists order' ∧
      Plan.Evolves C (s.plan order) { s'.plan order' with present_time := look } ∧
      ∀ i ∈ order', look < s'.data.timestamp i := by
  obtain ⟨s₁, hdispatch, rfl⟩ := Option.map_eq_some_iff.1 hirq
  obtain ⟨order₁, hgoes, hdone, hfirst⟩ :=
    dispatch_done hcode (s := s.clear_interrupt) (h.clock _) hs hdispatch
  rw [if_neg hne] at hfirst
  refine ⟨s₁.data.clock.present_time, order₁, hfirst.clock.present_time_le, ?_,
    hgoes.lists.clock _, hgoes.plan, hdone⟩
  exact (TickerClock.evolves_schedule_interrupt _ _).present_time_le

/-- **Every period is called once, on the first interrupt that finds it due.**  From a state `s` in
which `i` is attached, the main program and the attached functions leave `i` alone; then the calls
of `i` up to the end of an interrupt are exactly those that were due when it looked last. -/
theorem called_each_period {es' : List (Occurrence α β γ)} {s₁ : Tickers α β γ} {lags : List ℕ}
    {i : α}
    (hrun : Fallible.run (step code fuel) (start interface event delay base world) es = some s)
    (hi : (s.ticker i).function.isSome)
    (hcode : ∀ func, ∀ c ∈ code func, ¬ Plan.Touches i c)
    (hes' : ∀ c lags, .command c lags ∈ es' → ¬ Plan.Touches i c)
    (hrun' : Fallible.run (step code fuel) s es' = some s₁)
    (hirq : step code fuel s₁ (.interrupt lags) = some s') :
    ∃ look k, (s₁.enter lags).clear_interrupt.data.clock.update_present_time.present_time ≤ look ∧
      look ≤ s'.data.clock.present_time ∧
      s'.callsOf i =
        ((List.range k).map fun n => s.data.timestamp i + n * (s.ticker i).delay).reverse ++
          s.callsOf i ∧
      ∀ n, n < k ↔ s.data.timestamp i + n * (s.ticker i).delay ≤ look := by
  obtain ⟨order, h⟩ := reached_run hrun
  have hmem : i ∈ order := (h.sound.attached i).2 hi
  obtain ⟨order₁, hlists₁, hplan₁⟩ := run_refines (C := fun c => ¬ Plan.Touches i c) hcode h.lists
    h.sound (fun e he => by cases e with
      | command c lags => exact hes' c lags he
      | _ => trivial) hrun'
  have hs₁ := hplan₁.sound h.sound
  obtain ⟨k₁, hper₁⟩ := hplan₁.periodic hmem fun c hc => hc
  have hne : order₁ ≠ [] := List.ne_nil_of_mem hper₁.mem
  obtain ⟨look, order', hfirst, hlast, hlists', hplan', hdone⟩ := ticker_irq_handler_done hcode
    (s := s₁.enter lags) (hlists₁.clock _) hs₁ hirq hne
  have hplan := hplan₁.trans hplan'
  obtain ⟨k, hper⟩ := hplan.periodic hmem fun c hc => hc
  have htimely := hplan.timely h.sound h.timely
  refine ⟨look, k, hfirst, hlast, hper.calls, fun n => ⟨fun hn => ?_, fun hn => ?_⟩⟩
  · -- the call was due, and made before the last look
    have hcall : s.data.timestamp i + n * (s.ticker i).delay ∈
        Plan.callsOf { s'.plan order' with present_time := look } i := by
      rw [hper.calls]
      refine List.mem_append_left _ (List.mem_reverse.2 (List.mem_map.2 ⟨n, ?_, rfl⟩))
      exact List.mem_range.2 hn
    obtain ⟨c, hc, hct⟩ := List.mem_map.1 hcall
    have hdue := htimely.due c (List.mem_filter.1 hc).1
    exact hct ▸ hdue.1.trans hdue.2
  · by_contra hkn
    have hnext := hdone i hper.mem
    have hts : s'.data.timestamp i = s.data.timestamp i + k * (s.ticker i).delay := hper.timestamp
    have hle : k * (s.ticker i).delay ≤ n * (s.ticker i).delay :=
      Nat.mul_le_mul_right _ (not_lt.1 hkn)
    omega

theorem called_each_period_applies :
    ∃ s s₁ s' : Tickers Bool Unit ℕ,
      Fallible.run (step (fun _ => [.act (· + 1)]) 9) two_tickers
        [.command (.attach_us true () 3) [1, 0, 1]] = some s ∧
      Fallible.run (step (fun _ => [.act (· + 1)]) 9) s
        [.command (.attach_us false () 2) [], .elapse 5] = some s₁ ∧
      step (fun _ => [.act (· + 1)]) 9 s₁ (.interrupt [1]) = some s' ∧
      ∃ look k, (s₁.enter [1]).clear_interrupt.data.clock.update_present_time.present_time ≤ look ∧
        look ≤ s'.data.clock.present_time ∧
        s'.callsOf true =
          ((List.range k).map fun n => s.data.timestamp true + n * (s.ticker true).delay).reverse ++
            s.callsOf true ∧
        ∀ n, n < k ↔ s.data.timestamp true + n * (s.ticker true).delay ≤ look := by
  have hattached : ∀ s ∈ Fallible.run (step (fun _ => [.act (· + 1)]) 9) two_tickers
      [.command (.attach_us true () 3) [1, 0, 1]], (s.ticker true).function.isSome := by
    decide +kernel
  obtain ⟨s', hs'⟩ := Option.isSome_iff_exists.1 (by decide +kernel : ((Fallible.run
    (step (fun _ => [.act (· + 1)]) 9) two_tickers
      [.command (.attach_us true () 3) [1, 0, 1]]).bind fun s => (Fallible.run
    (step (fun _ => [.act (· + 1)]) 9) s
      [.command (.attach_us false () 2) [], .elapse 5]).bind fun s₁ =>
    step (fun _ => [.act (· + 1)]) 9 s₁ (.interrupt [1])).isSome)
  obtain ⟨s, hrun, hs'⟩ := Option.bind_eq_some_iff.1 hs'
  obtain ⟨s₁, hrun', hirq⟩ := Option.bind_eq_some_iff.1 hs'
  exact ⟨s, s₁, s', hrun, hrun', hirq, called_each_period hrun (hattached s hrun)
    (by simp [Plan.Touches]) (by simp [Plan.Touches]) hrun' hirq⟩

/-! ### First come, first served -/

/-- **First come, first served.**  `j` is attached when `i` is waiting for a call that is due no
later; as long as both are left alone, every call of `j` since then comes after one of `i`. -/
theorem first_come_first_served {es' : List (Occurrence α β γ)} {s₁ s₂ : Tickers α β γ}
    {i j : α} {func : β} {t : ℕ} {lags : List ℕ} (hij : i ≠ j)
    (hrun : Fallible.run (step code fuel) (start interface event delay base world) es = some s)
    (hi : (s.ticker i).function.isSome)
    (hattach : step code fuel s (.command (.attach_us j func t) lags) = some s₁)
    (hlater : s₁.data.timestamp i ≤ s₁.data.timestamp j)
    (hcode : ∀ func, ∀ c ∈ code func, ¬ Plan.Touches i c ∧ ¬ Plan.Touches j c)
    (hes' : ∀ c lags, .command c lags ∈ es' → ¬ Plan.Touches i c ∧ ¬ Plan.Touches j c)
    (hrun' : Fallible.run (step code fuel) s₁ es' = some s₂) :
    ∃ calls, s₂.calls = calls ++ s₁.calls ∧ Plan.Heralded i j calls := by
  obtain ⟨order, h⟩ := reached_run hrun
  obtain ⟨s₀, now, c, heq, hlists, hplan, -⟩ :=
    attach_us_spec (s := s.enter lags) (h.lists.clock _) j func t
  rw [step, command, heq, Option.ite_none_left_eq_some] at hattach
  obtain rfl : s₀ = s₁ := Option.some.inj hattach.2
  have hsound : (s₀.plan (place s₀.data.timestamp j (order.erase j))).Sound base := by
    rw [hplan]
    have hnow : ({ s.plan order with present_time := now } : Plan α β γ).Sound base :=
      ⟨h.sound.nodup, h.sound.sorted, h.sound.attached, h.sound.lock⟩
    have hset := hnow.attach j func t
    exact ⟨hset.nodup, hset.sorted, hset.attached, hset.lock⟩
  have hmem : i ∈ order.erase j :=
    (List.mem_erase_of_ne hij).2 ((h.sound.attached i).2 hi)
  -- the others keep their timestamps, so they were sorted by them before `j` came
  have hsorted : Sorted s₀.data.timestamp (order.erase j) := by
    refine (h.sound.sorted.erase j).congr fun m hm => ?_
    have hts : s₀.data.timestamp = Function.update s.data.timestamp j (t + now) :=
      congrArg Plan.timestamp hplan
    rw [hts, Function.update_of_ne (ne_of_mem_of_not_mem hm h.sound.nodup.not_mem_erase)]
    rfl
  obtain ⟨order₂, -, hplan₂⟩ := run_refines (C := fun c => ¬ Plan.Touches i c ∧ ¬ Plan.Touches j c)
    hcode hlists hsound (fun e he => by cases e with
      | command c lags => exact hes' c lags he
      | _ => trivial) hrun'
  exact hplan₂.fifo hsound hij (sublist_place hsorted hmem hlater) fun c hc => hc

/-- Both are due at the same time. -/
theorem first_come_first_served_applies :
    ∃ s s₁ s₂ : Tickers Bool Unit ℕ,
      Fallible.run (step (fun _ => [.act (· + 1)]) 9) two_tickers
        [.command (.attach_us true () 3) [1]] = some s ∧
      step (fun _ => [.act (· + 1)]) 9 s (.command (.attach_us false () 3) []) = some s₁ ∧
      Fallible.run (step (fun _ => [.act (· + 1)]) 9) s₁ [.elapse 5, .interrupt [1]] = some s₂ ∧
      s₂.callsOf false ≠ s₁.callsOf false ∧
      ∃ calls, s₂.calls = calls ++ s₁.calls ∧ Plan.Heralded true false calls := by
  have hrun : ∀ s ∈ Fallible.run (step (fun _ => [.act (· + 1)]) 9) two_tickers
      [.command (.attach_us true () 3) [1]], (s.ticker true).function.isSome ∧
        ∀ s₁ ∈ step (fun _ => [.act (· + 1)]) 9 s (.command (.attach_us false () 3) []),
          s₁.data.timestamp true ≤ s₁.data.timestamp false ∧
            ∀ s₂ ∈ Fallible.run (step (fun _ => [.act (· + 1)]) 9) s₁ [.elapse 5, .interrupt [1]],
              s₂.callsOf false ≠ s₁.callsOf false := by
    decide +kernel
  obtain ⟨s₂, hs₂⟩ := Option.isSome_iff_exists.1 (by decide +kernel : ((Fallible.run
    (step (fun _ => [.act (· + 1)]) 9) two_tickers
      [.command (.attach_us true () 3) [1]]).bind fun s =>
    (step (fun _ => [.act (· + 1)]) 9 s (.command (.attach_us false () 3) [])).bind fun s₁ =>
    Fallible.run (step (fun _ => [.act (· + 1)]) 9) s₁ [.elapse 5, .interrupt [1]]).isSome)
  obtain ⟨s, hs, hs₂⟩ := Option.bind_eq_some_iff.1 hs₂
  obtain ⟨s₁, hattach, hs₂⟩ := Option.bind_eq_some_iff.1 hs₂
  obtain ⟨hi, hlater⟩ := hrun s hs
  obtain ⟨hlater, hj⟩ := hlater s₁ hattach
  exact ⟨s, s₁, s₂, hs, hattach, hs₂, hj s₂ hs₂, first_come_first_served (by decide) hs hi hattach
    hlater (by simp [Plan.Touches]) (by simp) hs₂⟩

end Tickers

end NucleoMotor
