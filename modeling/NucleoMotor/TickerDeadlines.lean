import NucleoMotor.TickerAwake
import NucleoMotor.TickerRuns

/-!
# Deadlines of the tickers

A run is `Prompt L D` when every interrupt is served in less than `L` ticks and no command or
interrupt takes more than `D`.  If `L` is no longer than the 9/16 of a round that `max_delta` leaves
(`InTime`), no tick is ever lost (`present_time_of_run`), no event waits for more than `L + D` ticks
and a microsecond after it is due (`waiting_of_run`), and no call is later than that
(`late_of_run`).
-/

namespace NucleoMotor

namespace Tickers

open Agenda

variable {α β γ : Type}

/-- The code that starts now takes no more than `D` ticks, and is done less than `L` ticks after
the interrupt has been raised. -/
def Serves (L D : ℕ) (s : Tickers α β γ) (lags : List ℕ) : Prop :=
  lags.sum ≤ D ∧ ∀ since ∈ s.data.clock.interface.pending,
    s.data.clock.interface.now + lags.sum < since + L

/-- Less than `L` ticks go by before an interrupt is served, and it takes no more than `D`. -/
def Prompt (L D : ℕ) (s : Tickers α β γ) : Occurrence α β γ → Prop
  | .elapse d => ∀ since ∈ (s.data.clock.interface.elapse d).pending,
    s.data.clock.interface.now + d < since + L
  | .command _ lags => s.Serves L D lags
  | .interrupt lags => s.Serves L D lags

instance (L D : ℕ) (s : Tickers α β γ) (lags : List ℕ) : Decidable (s.Serves L D lags) :=
  inferInstanceAs (Decidable (_ ∧ _))

instance (L D : ℕ) (s : Tickers α β γ) : ∀ e, Decidable (s.Prompt L D e)
  | .elapse d => inferInstanceAs (Decidable (∀ since ∈ (s.data.clock.interface.elapse d).pending,
    s.data.clock.interface.now + d < since + L))
  | .command _ lags => inferInstanceAs (Decidable (s.Serves L D lags))
  | .interrupt lags => inferInstanceAs (Decidable (s.Serves L D lags))

/-- `max_delta` and `L` fit in a round of a counter of `bits`. -/
structure InTime (bits L D : ℕ) : Prop where
  code : D < L
  delta : D < 7 * 2 ^ (bits - 4)
  round : L + 7 * 2 ^ (bits - 4) ≤ 2 ^ bits

variable {s s' : Tickers α β γ} {order order' : List α} {start L D seen base : ℕ}
  {interface : Counter} {lags : List ℕ}

/-- Nothing is listed before the head. -/
theorem head_before (h : s.data.Lists order) {i : α} (hi : i ∈ order) :
    ∃ ts ∈ order.head?.map s.data.timestamp, ts ≤ s.data.timestamp i := by
  cases order with
  | nil => cases hi
  | cons p rest => exact ⟨_, rfl, h.sorted.head_le hi⟩

/-- What code has to find when it starts, with the list `order`. -/
structure Starts (start D : ℕ) (s : Tickers α β γ) (order : List α) (seen : ℕ) : Prop where
  lists : s.data.Lists order
  calibrated : s.data.clock.Calibrated
  awake : s.data.clock.Awake start D (order.head?.map s.data.timestamp) seen
  current : s.data.clock.Current start seen
  lags_le : s.data.clock.interface.lags.sum ≤ D
  delta : D < s.data.clock.maxDelta

/-- The flag of the interrupt is cleared first. -/
theorem Starts.clear_current (h : s.Starts start D order seen) :
    s.clear_interrupt.data.clock.Current start seen :=
  ⟨h.current.start_le, h.current.reads.interface rfl le_rfl, h.current.in_time⟩

/-- What is listed has not been due for long when the code is done. -/
theorem Starts.within_end (h : s.Starts start D order seen)
    (hserves : ∀ since ∈ s.data.clock.interface.pending,
      s.data.clock.interface.now + s.data.clock.interface.lags.sum < since + L) {i : α}
    (hi : i ∈ order) : TickerClock.Within s.data.clock.frequency start (L + D)
      (s.data.clock.interface.now + s.data.clock.interface.lags.sum) (s.data.timestamp i) := by
  obtain ⟨ts, hts, hle⟩ := head_before h.lists hi
  have hlags := h.lags_le
  cases hpending : s.data.clock.interface.pending with
  | none =>
    obtain ⟨T, hT1, -, -, hT4⟩ := h.awake.armed hpending
    exact (hT4 ts hts).mono hle (by omega)
  | some since =>
    have hlt := hserves since hpending
    exact ((h.awake.raised since hpending).2.2 ts hts).mono hle (by omega)

/-- The time that the interrupt finds is not long after what is listed was due. -/
theorem Starts.present_lt (h : s.Starts start D order seen)
    (hserves : ∀ since ∈ s.data.clock.interface.pending,
      s.data.clock.interface.now + s.data.clock.interface.lags.sum < since + L) {i : α}
    (hi : i ∈ order) {c : TickerClock} (hc : s.clear_interrupt.data.clock.Evolves c) :
    c.present_time * s.data.clock.frequency <
      (s.data.timestamp i + 1) * s.data.clock.frequency + (L + D) * 1000000 := by
  obtain ⟨seen', -, hcur⟩ := hc.current (h.calibrated.interface rfl) h.clear_current
  have hwithin := h.within_end hserves hi
  have hfrequency : c.frequency = s.data.clock.frequency := hc.frequency_eq
  have hreads := hcur.reads.total
  rw [hfrequency] at hreads
  have hseen := hcur.reads.le_now
  have hstart := hcur.start_le
  have htotal : c.interface.now + c.interface.lags.sum =
    s.data.clock.interface.now + s.data.clock.interface.lags.sum := hc.later.total
  unfold TickerClock.Within at hwithin
  omega

/-- The interrupt is scheduled last, at `clock`, for a list on which nothing is due before the code
first read the counter, or before what was listed. -/
theorem Starts.schedule (h : s.Starts start D order seen) {clock : TickerClock}
    (hclock : s.data.clock.Evolves clock) {head : Option ℕ}
    (hhead : ∀ ts ∈ head, s.data.clock.update_present_time.present_time ≤ ts ∨
      ∃ i ∈ order, s.data.timestamp i ≤ ts) :
    ∃ seen', (clock.schedule_interrupt head).Awake start D head seen' := by
  obtain ⟨seen₁, -, hcur⟩ := hclock.current h.calibrated h.current
  have hready : s.data.clock.Ready start D head := by
    refine h.awake.ready h.calibrated h.current h.lags_le fun ts hts => ?_
    rcases hhead ts hts with hle | ⟨i, hi, hle⟩
    · exact Or.inl hle
    · obtain ⟨ts₀, hts₀, hle₀⟩ := head_before h.lists hi
      exact Or.inr ⟨ts₀, hts₀, hle₀.trans hle⟩
  have hlater := hclock.later
  have hmax : clock.maxDelta = s.data.clock.maxDelta := by
    rw [TickerClock.maxDelta, hlater.bits, TickerClock.maxDelta]
  have hsum : clock.interface.lags.sum < clock.maxDelta := by
    rw [hmax]
    exact (hlater.sum_le.trans h.lags_le).trans_lt h.delta
  obtain ⟨seen', -, hawake⟩ := hcur.schedule (hclock.calibrated h.calibrated)
    (hclock.ready hready) hsum
  exact ⟨seen', hawake⟩

/-- What holds in every state of a prompt run on the counter `interface`. -/
structure Served (interface : Counter) (L D base : ℕ) (s : Tickers α β γ) (order : List α) :
    Prop where
  reached : Reached base s order
  calibrated : s.data.clock.Calibrated
  bits : s.data.clock.interface.bits = interface.bits
  frequency : s.data.clock.frequency = interface.frequency
  awake : ∃ seen, s.data.clock.Awake interface.lag.now D
    (order.head?.map s.data.timestamp) seen
  served : ∀ since ∈ s.data.clock.interface.pending, s.data.clock.interface.now < since + L
  late : ∀ c ∈ s.calls, c.present_time * interface.frequency <
    (c.timestamp + 1) * interface.frequency + (L + D) * 1000000

theorem Served.starts (h : Served interface L D base s order) (hin : InTime interface.bits L D)
    (hserves : s.Serves L D lags) :
    ∃ seen, (s.enter lags).Starts interface.lag.now D order seen := by
  obtain ⟨seen, hawake⟩ := h.awake
  have hmax : s.data.clock.maxDelta = 7 * 2 ^ (interface.bits - 4) := by
    rw [TickerClock.maxDelta, h.bits]
  have hround := hin.round
  have hdelta := hin.delta
  have hbits := h.bits
  refine ⟨seen, h.reached.lists.clock _, h.calibrated.interface rfl, hawake.setLags lags,
    (hawake.setLags lags).current (h.calibrated.interface rfl) hserves.1 ?_ ?_ hserves.2,
    hserves.1, ?_⟩
  · exact hdelta.trans_eq hmax.symm
  · show L + s.data.clock.maxDelta ≤ 2 ^ s.data.clock.interface.bits
    rw [hmax, hbits]
    exact hround
  · exact hdelta.trans_eq hmax.symm

/-- An interrupt raised while the code runs is served in time, as is one that was raised before. -/
theorem served_later (hcode : D < L) {i : Counter} (hlater : s.data.clock.interface.Later i)
    (hlags : s.data.clock.interface.lags.sum ≤ D)
    (hserves : ∀ since ∈ s.data.clock.interface.pending,
      s.data.clock.interface.now + s.data.clock.interface.lags.sum < since + L) :
    ∀ since ∈ i.pending, i.now < since + L := by
  intro since hsince
  have htotal := hlater.total
  rcases hlater.pending with heq | ⟨-, hbetween⟩
  · have hlt := hserves since (heq ▸ hsince)
    omega
  · have hle := (hbetween since hsince).1
    omega

/-- What the code has left behind, if it made no call of an event that was due long before. -/
theorem Served.goes (h : Served interface L D base s order) (hs' : Reached base s' order')
    {c : TickerClock} (hevolves : c.Evolves s'.data.clock)
    (hc : c.Calibrated) (hbits : c.interface.bits = s.data.clock.interface.bits)
    (hfrequency : c.frequency = s.data.clock.frequency) {n : ℕ}
    (htotal : c.interface.now + c.interface.lags.sum = n)
    (hawake : ∃ seen', s'.data.clock.Awake interface.lag.now D
      (order'.head?.map s'.data.timestamp) seen')
    (hserved : ∀ since ∈ s'.data.clock.interface.pending, s'.data.clock.interface.now < since + L)
    (hcalls : ∀ c ∈ s'.calls, c ∈ s.calls ∨
      TickerClock.Within interface.frequency interface.lag.now (L + D) n c.timestamp) :
    Served interface L D base s' order' := by
  have hlater := hevolves.later
  have hf : s'.data.clock.frequency = interface.frequency := by
    rw [hevolves.frequency_eq, hfrequency, h.frequency]
  refine ⟨hs', hevolves.calibrated hc, ?_, hf, hawake, hserved, fun call hcall => ?_⟩
  · rw [hlater.bits, hbits, h.bits]
  · rcases hcalls call hcall with hold | hwithin
    · exact h.late call hold
    · -- the clock shows no more than the ticks that have gone by
      obtain ⟨seen', hawake⟩ := hawake
      have hle : call.present_time ≤ s'.data.clock.present_time := (hs'.timely.due call hcall).2
      have hmul : call.present_time * interface.frequency ≤
          s'.data.clock.present_time * interface.frequency := Nat.mul_le_mul_right _ hle
      have htime := hawake.reads.total
      have hseen := hawake.reads.le_now
      have hstart := hawake.start_le
      have hend := hlater.total
      rw [hf] at htime
      unfold TickerClock.Within at hwithin
      omega

variable [DecidableEq α] [Fintype α]

/-! ### Commands -/

theorem Starts.attach_us (h : s.Starts start D order seen) {i : α} {func : β} {t : ℕ}
    (hs' : s.attach_us i func t = some s') (hlists' : s'.data.Lists order') :
    ∃ seen', s'.data.clock.Awake start D (order'.head?.map s'.data.timestamp) seen' := by
  obtain ⟨s₀, now, c, heq, hlists, hplan, hfirst, -, hc, hclock⟩ := attach_us_spec h.lists i func t
  rw [heq, Option.ite_none_left_eq_some] at hs'
  obtain rfl : s₀ = s' := Option.some.inj hs'.2
  have hts : s₀.data.timestamp = Function.update s.data.timestamp i (t + now) :=
    congrArg Plan.timestamp hplan
  rw [← hlists'.head_eq, hclock]
  refine h.schedule hc fun ts hhead => ?_
  obtain ⟨p, hp, rfl⟩ := Option.map_eq_some_iff.1 hhead
  rw [hlists.head_eq] at hp
  by_cases hpi : p = i
  · subst hpi
    refine Or.inl (hfirst.trans ?_)
    rw [hts, Function.update_self]
    exact Nat.le_add_left _ _
  · have hmem := (mem_place.1 (List.mem_of_head? hp)).resolve_left hpi
    refine Or.inr ⟨p, List.mem_of_mem_erase hmem, ?_⟩
    rw [hts, Function.update_of_ne hpi]

theorem Starts.detach (h : s.Starts start D order seen) {i : α}
    (hs' : s.detach i = some s') (hlists' : s'.data.Lists order') :
    ∃ seen', s'.data.clock.Awake start D (order'.head?.map s'.data.timestamp) seen' := by
  obtain ⟨s₀, heq, hlists, hplan, hclock⟩ := detach_spec h.lists i
  rw [heq, Option.ite_none_left_eq_some] at hs'
  obtain rfl : s₀ = s' := Option.some.inj hs'.2
  have hts : s₀.data.timestamp = s.data.timestamp := congrArg Plan.timestamp hplan
  rw [← hlists'.head_eq, hclock]
  split_ifs with hhead
  · refine h.schedule (.refl _) fun ts hts' => Or.inr ?_
    obtain ⟨p, hp, rfl⟩ := Option.map_eq_some_iff.1 hts'
    rw [hlists.head_eq] at hp
    exact ⟨p, List.mem_of_mem_erase (List.mem_of_head? hp), hts ▸ le_rfl⟩
  · -- the next ticker to be called is the one that it was
    have hsame : (order.erase i).head? = order.head? := by
      cases order with
      | nil => rfl
      | cons q rest =>
        have hqi : q ≠ i := fun hqi => hhead (congrArg some hqi)
        rw [List.erase_cons_tail (by simpa using hqi)]
        rfl
    rw [hlists.head_eq, hsame, hts]
    exact ⟨seen, h.awake⟩

/-- **Every command leaves the interrupt raised or about to be.** -/
theorem Starts.command (h : s.Starts start D order seen) {c : Command α β γ}
    (hc : s.command c = some s') (hlists' : s'.data.Lists order') :
    ∃ seen', s'.data.clock.Awake start D (order'.head?.map s'.data.timestamp) seen' := by
  cases c with
  | attach_us i func t => exact h.attach_us hc hlists'
  | detach i => exact h.detach hc hlists'
  | read f =>
    obtain rfl := Option.some.inj hc
    have hupdate := h.awake.update h.calibrated h.current
    rw [← h.lists.head_eq] at hupdate
    rw [← hlists'.head_eq]
    exact ⟨_, hupdate⟩
  | act f =>
    obtain rfl := Option.some.inj hc
    have hawake := h.awake
    rw [← h.lists.head_eq] at hawake
    rw [← hlists'.head_eq]
    exact ⟨seen, hawake⟩

/-! ### The interrupt -/

variable {code : β → List (Command α β γ)} {fuel : ℕ}

/-- **The interrupt leaves itself raised or about to be**: what it leaves on the list was not due
at its last look at the clock. -/
theorem Starts.interrupt (h : s.Starts start D order seen) (hs : (s.plan order).Sound base)
    (hirq : s.ticker_irq_handler code fuel = some s') (hlists' : s'.data.Lists order') :
    ∃ seen', s'.data.clock.Awake start D (order'.head?.map s'.data.timestamp) seen' := by
  obtain ⟨s₁, hdispatch, rfl⟩ := Option.map_eq_some_iff.1 hirq
  obtain ⟨order₁, hgoes, hdone, hfirst⟩ := dispatch_done (C := fun _ => True)
    (fun _ _ _ => trivial) (s := s.clear_interrupt) (h.lists.clock _) hs hdispatch
  obtain ⟨seen₁, -, hcur⟩ := hgoes.clock.current (h.calibrated.interface rfl) h.clear_current
  have hupdate := h.clear_current.update (h.calibrated.interface rfl)
  have hwithin := hupdate.reads.within hupdate.start_le
  rw [s.clear_interrupt.data.clock.update_frame.1] at hwithin
  have hnow := s.clear_interrupt.data.clock.interface.later_lag.now_le
  have hready : s.clear_interrupt.data.clock.Ready start D (order₁.head?.map s₁.data.timestamp) := by
    refine ⟨fun since hsince => (by cases hsince), fun _ ts hts => ?_⟩
    obtain ⟨p, hp, rfl⟩ := Option.map_eq_some_iff.1 hts
    have hmem := List.mem_of_head? hp
    split_ifs at hfirst with hnil
    · rw [hfirst.2] at hmem
      cases hmem
    · have hle := hfirst.clock.present_time_le.trans (hdone p hmem).le
      have hlags : s.clear_interrupt.data.clock.interface.lags.sum ≤ D := h.lags_le
      exact hwithin.mono hle (by omega)
  have hlater := hgoes.clock.later
  have hmax : s₁.data.clock.maxDelta = s.data.clock.maxDelta := by
    rw [TickerClock.maxDelta, hlater.bits]
    rfl
  have hsum : s₁.data.clock.interface.lags.sum < s₁.data.clock.maxDelta := by
    rw [hmax]
    exact (hlater.sum_le.trans h.lags_le).trans_lt h.delta
  have hclock := hcur.schedule (hgoes.clock.calibrated (h.calibrated.interface rfl))
    (hgoes.clock.ready hready) hsum
  rw [← hgoes.lists.head_eq] at hclock
  rw [← hlists'.head_eq]
  obtain ⟨seen', -, hawake⟩ := hclock
  exact ⟨seen', hawake⟩

/-- No call that the interrupt makes is for an event that was due long before it is done. -/
theorem Starts.interrupt_calls (h : s.Starts start D order seen) (hs : (s.plan order).Sound base)
    (hserves : ∀ since ∈ s.data.clock.interface.pending,
      s.data.clock.interface.now + s.data.clock.interface.lags.sum < since + L)
    (hirq : s.ticker_irq_handler code fuel = some s') {c : TickerCall α} (hc : c ∈ s'.calls) :
    c ∈ s.calls ∨ TickerClock.Within s.data.clock.frequency start (L + D)
      (s.data.clock.interface.now + s.data.clock.interface.lags.sum) c.timestamp := by
  obtain ⟨s₁, hdispatch, rfl⟩ := Option.map_eq_some_iff.1 hirq
  obtain ⟨order₁, -, -, hfirst⟩ := dispatch_done (C := fun _ => True)
    (fun _ _ _ => trivial) (s := s.clear_interrupt) (h.lists.clock _) hs hdispatch
  split_ifs at hfirst with hnil
  · obtain ⟨rfl, -⟩ := hfirst
    exact Or.inl hc
  · obtain ⟨p, rest, rfl⟩ := List.exists_cons_of_ne_nil hnil
    have hupdate := h.clear_current.update (h.calibrated.interface rfl)
    have hwithin := hupdate.reads.within hupdate.start_le
    rw [s.clear_interrupt.data.clock.update_frame.1] at hwithin
    have hnow := s.clear_interrupt.data.clock.interface.later_lag.now_le
    have hlags := h.lags_le
    have hstarts : s.clear_interrupt.data.clock.interface.now = s.data.clock.interface.now := rfl
    -- neither the first reading nor the head of the list was long before
    have hhead := h.within_end hserves List.mem_cons_self
    rcases hfirst.plan.due_after (min_le_left _ (s.data.timestamp p))
      (fun i hi => (min_le_right _ _).trans (h.lists.sorted.head_le hi)) hc with hold | hm
    · exact Or.inl hold
    · right
      rcases min_le_iff.1 hm with hm | hm
      · exact TickerClock.Within.mono hwithin hm (by omega)
      · exact hhead.mono hm le_rfl

/-! ### Runs -/

omit [DecidableEq α] [Fintype α] in
theorem Served.elapse (h : Served interface L D base s order) {d : ℕ}
    (hprompt : ∀ since ∈ (s.data.clock.interface.elapse d).pending,
      s.data.clock.interface.now + d < since + L) :
    Served interface L D base (s.setInterface (s.data.clock.interface.elapse d)) order := by
  obtain ⟨seen, hawake⟩ := h.awake
  exact ⟨⟨h.reached.lists.clock _, h.reached.sound, h.reached.timely⟩,
    h.calibrated.interface rfl, h.bits, h.frequency, ⟨seen, hawake.elapse h.calibrated d⟩,
    hprompt, h.late⟩

theorem Served.command (h : Served interface L D base s order) (hin : InTime interface.bits L D)
    (hserves : s.Serves L D lags) {c : Command α β γ} (hc : (s.enter lags).command c = some s') :
    ∃ order', Served interface L D base s' order' := by
  obtain ⟨seen, hstarts⟩ := h.starts hin hserves
  obtain ⟨order', hgoes⟩ := command_goes (C := fun _ => True) hstarts.lists trivial hc
  refine ⟨order', h.goes ⟨hgoes.lists, hgoes.plan.sound h.reached.sound,
    hgoes.plan.timely h.reached.sound h.reached.timely⟩ hgoes.clock hstarts.calibrated rfl rfl rfl
    (hstarts.command hc hgoes.lists)
    (served_later hin.code hgoes.clock.later hserves.1 hserves.2) fun call hcall => Or.inl ?_⟩
  rwa [command_calls hstarts.lists hc] at hcall

theorem Served.interrupt (h : Served interface L D base s order) (hin : InTime interface.bits L D)
    (hserves : s.Serves L D lags)
    (hirq : (s.enter lags).ticker_irq_handler code fuel = some s') :
    ∃ order', Served interface L D base s' order' := by
  obtain ⟨seen, hstarts⟩ := h.starts hin hserves
  obtain ⟨order', hgoes⟩ := ticker_irq_handler_goes (C := fun _ => True) (fun _ _ _ => trivial)
    hstarts.lists h.reached.sound hirq
  refine ⟨order', h.goes ⟨hgoes.lists, hgoes.plan.sound h.reached.sound,
    hgoes.plan.timely h.reached.sound h.reached.timely⟩ hgoes.clock
    (hstarts.calibrated.interface rfl) rfl rfl rfl
    (hstarts.interrupt h.reached.sound hirq hgoes.lists)
    (served_later (s := (s.enter lags).clear_interrupt) hin.code hgoes.clock.later hserves.1
      fun since hsince => (by cases hsince)) fun call hcall => ?_⟩
  have hcalls := hstarts.interrupt_calls h.reached.sound hserves.2 hirq hcall
  rwa [show (s.enter lags).data.clock.frequency = interface.frequency from h.frequency] at hcalls

/-- **What takes place in time leaves everything in time.** -/
theorem Served.step (h : Served interface L D base s order) (hin : InTime interface.bits L D)
    {e : Occurrence α β γ} (he : s.Prompt L D e) (hstep : step code fuel s e = some s') :
    ∃ order', Served interface L D base s' order' := by
  cases e with
  | elapse d =>
    obtain rfl := Option.some.inj hstep
    exact ⟨order, h.elapse he⟩
  | command c lags => exact h.command hin he hstep
  | interrupt lags => exact h.interrupt hin he hstep

variable {event : α → TickerEvent α} {delay : α → ℕ} {world : γ}
  {es es' : List (Occurrence α β γ)}

omit [DecidableEq α] [Fintype α] in
theorem served_start (hvalid : TickerClock.Valid interface) (hnone : interface.pending = none)
    (hin : InTime interface.bits L D) (hlags : interface.lags.sum ≤ D) :
    Served interface L D base (Tickers.start (β := β) interface event delay base world) [] := by
  have hc := TickerClock.calibrated_fresh hvalid
  have hlag := interface.later_lag
  have htotal := hlag.total
  have hinit := TickerClock.evolves_initializeQueue hvalid
  have hupdate := TickerClock.evolves_update (TickerClock.fresh interface)
  have hcur : (TickerClock.fresh interface).Current interface.lag.now interface.lag.now := by
    refine ⟨le_rfl, ?_, ?_⟩
    · rw [Nat.sub_self]
      exact TickerClock.reads_fresh hvalid
    · have hround := hin.round
      have hdelta := hin.delta
      show interface.lag.now + interface.lag.lags.sum < interface.lag.now + 2 ^ interface.lag.bits
      rw [hlag.bits]
      have hsum := hlag.sum_le
      omega
  have hready : (TickerClock.fresh interface).Ready interface.lag.now D none := by
    refine ⟨fun since hsince => ⟨?_, by simp⟩, by simp⟩
    rcases hlag.pending with heq | ⟨-, hbetween⟩
    · cases (heq.trans hnone).symm.trans hsince
    · exact (hbetween since hsince).2
  have hsum : (TickerClock.fresh interface).update_present_time.interface.lags.sum <
      (TickerClock.fresh interface).update_present_time.maxDelta := by
    have hmax : (TickerClock.fresh interface).update_present_time.maxDelta =
        7 * 2 ^ (interface.bits - 4) := by
      rw [TickerClock.maxDelta, hupdate.later.bits]
      exact congrArg (fun b => 7 * 2 ^ (b - 4)) hlag.bits
    rw [hmax]
    exact ((hupdate.later.sum_le.trans hlag.sum_le).trans hlags).trans_lt hin.delta
  obtain ⟨seen, -, hawake⟩ := (hcur.update hc).schedule hc.update (hupdate.ready hready) hsum
  refine ⟨⟨lists_start .., sound_start .., timely_start ..⟩, hinit.calibrated hc,
    hinit.later.bits.trans hlag.bits, hinit.frequency_eq, ⟨seen, ?_⟩, ?_, by simp [Tickers.start]⟩
  · show (TickerClock.initializeQueue interface).Awake _ _ _ _
    rw [TickerClock.initializeQueue_eq hvalid]
    exact hawake
  · -- raised at the earliest while the counter was looked at
    have hlater := hlag.trans hinit.later
    have hend := hlater.total
    intro since hsince
    rcases hlater.pending with heq | ⟨-, hbetween⟩
    · cases (heq.trans hnone).symm.trans hsince
    · have hle := (hbetween since hsince).1
      have hcode := hin.code
      show (TickerClock.initializeQueue interface).interface.now < since + L
      omega

/-- **Every state of a prompt run is in time.** -/
theorem served_run (hvalid : TickerClock.Valid interface) (hnone : interface.pending = none)
    (hin : InTime interface.bits L D) (hlags : interface.lags.sum ≤ D)
    (hprompt : Fallible.AllSteps (step code fuel) (Prompt L D)
      (Tickers.start interface event delay base world) es)
    (hrun : Fallible.run (step code fuel) (Tickers.start interface event delay base world) es =
      some s) : ∃ order, Served interface L D base s order :=
  hprompt.invariant (P := fun s => ∃ order, Served interface L D base s order) hrun
    ⟨[], served_start hvalid hnone hin hlags⟩
    fun _ _ _ ⟨_, h⟩ he hstep => h.step hin he hstep

/-- **No tick is lost.**  The present time is that of the last reading, which is less than a round
old. -/
theorem present_time_of_run (hvalid : TickerClock.Valid interface)
    (hnone : interface.pending = none) (hin : InTime interface.bits L D)
    (hlags : interface.lags.sum ≤ D)
    (hprompt : Fallible.AllSteps (step code fuel) (Prompt L D)
      (Tickers.start interface event delay base world) es)
    (hrun : Fallible.run (step code fuel) (Tickers.start interface event delay base world) es =
      some s) :
    ∃ seen, interface.lag.now ≤ seen ∧ seen ≤ s.data.clock.interface.now ∧
      s.data.clock.interface.now < seen + 2 ^ interface.bits ∧
      s.data.clock.present_time = (seen - interface.lag.now) * 1000000 / interface.frequency := by
  obtain ⟨order, h⟩ := served_run hvalid hnone hin hlags hprompt hrun
  obtain ⟨seen, hawake⟩ := h.awake
  refine ⟨seen, hawake.start_le, hawake.reads.le_now, ?_, ?_⟩
  · have hmax : s.data.clock.maxDelta = 7 * 2 ^ (interface.bits - 4) := by
      rw [TickerClock.maxDelta, h.bits]
    have hround := hin.round
    cases hpending : s.data.clock.interface.pending with
    | none =>
      obtain ⟨T, hT1, hT2, -⟩ := hawake.armed hpending
      omega
    | some since =>
      have hsince := (hawake.raised since hpending).2.1
      have hlt := h.served since hpending
      omega
  · rw [hawake.reads.present_time_eq, h.frequency]

/-- A counter of 8 bits, with code that takes up to 3 ticks. -/
theorem present_time_of_run_applies :
    ∃ s : Tickers Bool Unit ℕ, Fallible.run (step (fun _ => [.act (· + 1)]) 9)
        (Tickers.start ⟨32768, 8, 0, 0, none, []⟩ (fun i => ⟨0, i, none⟩) (fun _ => 0) 0 0)
        [.elapse 21, .command (.attach_us true () 300) [1, 0, 1], .elapse 14, .interrupt [1]] =
          some s ∧
      ∃ seen, 0 ≤ seen ∧ seen ≤ s.data.clock.interface.now ∧
        s.data.clock.interface.now < seen + 2 ^ 8 ∧
        s.data.clock.present_time = (seen - 0) * 1000000 / 32768 :=
  (Option.isSome_iff_exists.1 (by decide +kernel)).imp fun _ hrun =>
    ⟨hrun, present_time_of_run (L := 20) (D := 3) (by decide) rfl
      ⟨by decide, by decide, by decide⟩ (by decide) (by decide +kernel) hrun⟩

omit [DecidableEq α] [Fintype α] in
/-- What is listed has not been due for long. -/
theorem Served.waiting (h : Served interface L D base s order) {i : α} (hi : i ∈ order) :
    (s.data.clock.interface.now - interface.lag.now) * 1000000 <
      (s.data.timestamp i + 1) * interface.frequency + (L + D) * 1000000 := by
  obtain ⟨seen, hawake⟩ := h.awake
  obtain ⟨ts, hts, hle⟩ := head_before h.reached.lists hi
  have hwithin : TickerClock.Within s.data.clock.frequency interface.lag.now (L + D)
      s.data.clock.interface.now ts := by
    cases hpending : s.data.clock.interface.pending with
    | none =>
      obtain ⟨T, hT1, -, -, hT4⟩ := hawake.armed hpending
      exact (hT4 ts hts).mono le_rfl (by omega)
    | some since =>
      have hlt := h.served since hpending
      exact ((hawake.raised since hpending).2.2 ts hts).mono le_rfl (by omega)
  have hlate := hwithin.mono hle le_rfl
  rw [h.frequency, TickerClock.Within, add_assoc] at hlate
  rw [Nat.sub_mul]
  refine Nat.sub_lt_left_of_lt_add ?_ hlate
  exact Nat.mul_le_mul_right _ (hawake.start_le.trans hawake.reads.le_now)

/-- **No event waits for long**: at no time has an attached ticker been due for more than `L + D`
ticks and a microsecond. -/
theorem waiting_of_run (hvalid : TickerClock.Valid interface)
    (hnone : interface.pending = none) (hin : InTime interface.bits L D)
    (hlags : interface.lags.sum ≤ D)
    (hprompt : Fallible.AllSteps (step code fuel) (Prompt L D)
      (Tickers.start interface event delay base world) es)
    (hrun : Fallible.run (step code fuel) (Tickers.start interface event delay base world) es =
      some s) {i : α} (hi : (s.ticker i).function.isSome) :
    (s.data.clock.interface.now - interface.lag.now) * 1000000 <
      (s.data.timestamp i + 1) * interface.frequency + (L + D) * 1000000 := by
  obtain ⟨order, h⟩ := served_run hvalid hnone hin hlags hprompt hrun
  exact h.waiting ((h.reached.sound.attached i).2 hi)

theorem waiting_of_run_applies :
    ∃ s : Tickers Bool Unit ℕ, Fallible.run (step (fun _ => [.act (· + 1)]) 9)
        (Tickers.start ⟨32768, 8, 0, 0, none, []⟩ (fun i => ⟨0, i, none⟩) (fun _ => 0) 0 0)
        [.elapse 21, .command (.attach_us true () 300) [1, 0, 1], .elapse 14, .interrupt [1]] =
          some s ∧
      (s.data.clock.interface.now - 0) * 1000000 <
        (s.data.timestamp true + 1) * 32768 + (20 + 3) * 1000000 := by
  have hattached : ∀ s ∈ Fallible.run (step (fun _ : Unit => [.act (· + 1)]) 9)
      (Tickers.start ⟨32768, 8, 0, 0, none, []⟩ (fun i : Bool => ⟨0, i, none⟩) (fun _ => 0) 0 0)
      [.elapse 21, .command (.attach_us true () 300) [1, 0, 1], .elapse 14, .interrupt [1]],
      (s.ticker true).function.isSome := by
    decide +kernel
  exact (Option.isSome_iff_exists.1 (by decide +kernel)).imp fun s hrun =>
    ⟨hrun, waiting_of_run (L := 20) (D := 3) (by decide) rfl ⟨by decide, by decide, by decide⟩
      (by decide) (by decide +kernel) hrun (hattached s hrun)⟩

/-- **No call is late, and none is missing**: the functions are called within `L + D` ticks and a
microsecond of the time their call was due, and a ticker that is left alone since a state `s` has
been called in every period that was due earlier than that, its next call being the `k`-th. -/
theorem late_of_run (hvalid : TickerClock.Valid interface)
    (hnone : interface.pending = none) (hin : InTime interface.bits L D)
    (hlags : interface.lags.sum ≤ D)
    (hprompt : Fallible.AllSteps (step code fuel) (Prompt L D)
      (Tickers.start interface event delay base world) (es ++ es'))
    (hrun : Fallible.run (step code fuel) (Tickers.start interface event delay base world) es =
      some s)
    (hrun' : Fallible.run (step code fuel) s es' = some s') :
    (∀ c ∈ s'.calls, c.present_time * interface.frequency <
      (c.timestamp + 1) * interface.frequency + (L + D) * 1000000) ∧
    ∀ i, (s.ticker i).function.isSome → (∀ func, ∀ c ∈ code func, ¬ Plan.Touches i c) →
      (∀ c lags, .command c lags ∈ es' → ¬ Plan.Touches i c) →
      ∃ k, s'.callsOf i =
          ((List.range k).map fun n => s.data.timestamp i + n * (s.ticker i).delay).reverse ++
            s.callsOf i ∧
        (s'.data.clock.interface.now - interface.lag.now) * 1000000 <
          (s.data.timestamp i + k * (s.ticker i).delay + 1) * interface.frequency +
            (L + D) * 1000000 := by
  obtain ⟨order, h⟩ := served_run hvalid hnone hin hlags
    (Fallible.allSteps_append.1 hprompt).1 hrun
  obtain ⟨order', h'⟩ := served_run (s := s') hvalid hnone hin hlags hprompt (by
    rw [Fallible.run_append, hrun]
    exact hrun')
  refine ⟨h'.late, fun i hi hcode hes' => ?_⟩
  obtain ⟨order₁, hlists, hplan⟩ := run_refines (C := fun c => ¬ Plan.Touches i c) hcode
    h.reached.lists h.reached.sound (fun e he => by cases e with
      | command c lags => exact hes' c lags he
      | _ => trivial) hrun'
  obtain ⟨k, hper⟩ := hplan.periodic ((h.reached.sound.attached i).2 hi) fun c hc => hc
  have hsound := hplan.sound h.reached.sound
  have hwaiting := h'.waiting ((h'.reached.sound.attached i).2 ((hsound.attached i).1 hper.mem))
  have htimestamp : s'.data.timestamp i = s.data.timestamp i + k * (s.ticker i).delay :=
    hper.timestamp
  rw [htimestamp] at hwaiting
  exact ⟨k, hper.calls, hwaiting⟩

theorem late_of_run_applies :
    ∃ s s' : Tickers Bool Unit ℕ, Fallible.run (step (fun _ => [.act (· + 1)]) 9)
        (Tickers.start ⟨32768, 8, 0, 0, none, []⟩ (fun i => ⟨0, i, none⟩) (fun _ => 0) 0 0)
        [.elapse 21, .command (.attach_us true () 300) [1, 0, 1]] = some s ∧
      Fallible.run (step (fun _ => [.act (· + 1)]) 9) s [.elapse 14, .interrupt [1]] = some s' ∧
      (∀ c ∈ s'.calls, c.present_time * 32768 < (c.timestamp + 1) * 32768 + (20 + 3) * 1000000) ∧
      ∃ k, s'.callsOf true =
          ((List.range k).map fun n => s.data.timestamp true + n * (s.ticker true).delay).reverse ++
            s.callsOf true ∧
        (s'.data.clock.interface.now - 0) * 1000000 <
          (s.data.timestamp true + k * (s.ticker true).delay + 1) * 32768 + (20 + 3) * 1000000 := by
  have hattached : ∀ s ∈ Fallible.run (step (fun _ : Unit => [.act (· + 1)]) 9)
      (Tickers.start ⟨32768, 8, 0, 0, none, []⟩ (fun i : Bool => ⟨0, i, none⟩) (fun _ => 0) 0 0)
      [.elapse 21, .command (.attach_us true () 300) [1, 0, 1]],
      (s.ticker true).function.isSome := by
    decide +kernel
  obtain ⟨s', hs'⟩ := Option.isSome_iff_exists.1 (by decide +kernel : ((Fallible.run
    (step (fun _ : Unit => [.act (· + 1)]) 9)
      (Tickers.start ⟨32768, 8, 0, 0, none, []⟩ (fun i : Bool => ⟨0, i, none⟩) (fun _ => 0) 0 0)
      [.elapse 21, .command (.attach_us true () 300) [1, 0, 1]]).bind fun s =>
    Fallible.run (step (fun _ => [.act (· + 1)]) 9) s [.elapse 14, .interrupt [1]]).isSome)
  obtain ⟨s, hrun, hrun'⟩ := Option.bind_eq_some_iff.1 hs'
  have hlate := late_of_run (L := 20) (D := 3) (by decide) rfl ⟨by decide, by decide, by decide⟩
    (by decide) (by decide +kernel) hrun hrun'
  exact ⟨s, s', hrun, hrun', hlate.1,
    hlate.2 true (hattached s hrun) (by simp [Plan.Touches]) (by simp)⟩

end Tickers

end NucleoMotor
