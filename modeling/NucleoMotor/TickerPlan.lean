import NucleoMotor.Plan
import NucleoMotor.TickerList

/-!
# The tickers keep to a plan

`Tickers.plan order` forgets the counter and the links of the list, whose members are `order`.
Every command and every interrupt that succeeds takes the plan where `Plan.Acts` allows
(`Goes`), with `code` and the main program running commands that meet `C`; so does every run
(`run_refines`).  A command fails only where the sleep manager does.
-/

namespace NucleoMotor

open Agenda

namespace Tickers

section

variable {α β γ : Type}

def plan (s : Tickers α β γ) (order : List α) : Plan α β γ :=
  ⟨order, s.data.timestamp, s.ticker, s.deep_sleep_lock, s.data.clock.present_time, s.world, s.calls⟩

theorem lists_start (interface : Counter) (event : α → TickerEvent α) (delay : α → ℕ) (base : ℕ)
    (world : γ) : (start (β := β) interface event delay base world).data.Lists [] :=
  ⟨rfl, by simp, List.Pairwise.nil⟩

/-- The plan of the start is empty. -/
theorem sound_start (interface : Counter) (event : α → TickerEvent α) (delay : α → ℕ) (base : ℕ)
    (world : γ) : ((start (β := β) interface event delay base world).plan []).Sound base :=
  ⟨List.nodup_nil, List.Pairwise.nil, by simp [plan, start], rfl⟩

theorem timely_start (interface : Counter) (event : α → TickerEvent α) (delay : α → ℕ) (base : ℕ)
    (world : γ) : ((start (β := β) interface event delay base world).plan []).Timely :=
  ⟨by simp [plan, start], List.Pairwise.nil, by simp [plan]⟩

variable [DecidableEq α]

/-- From `s`, with the list `order`, the code gets to `s'`, with the list `order'`. -/
structure Goes (C : Command α β γ → Prop) (s : Tickers α β γ) (order : List α)
    (s' : Tickers α β γ) (order' : List α) : Prop where
  lists : s'.data.Lists order'
  plan : Plan.Evolves C (s.plan order) (s'.plan order')
  clock : s.data.clock.Evolves s'.data.clock

variable {C : Command α β γ → Prop} {s s' s'' : Tickers α β γ} {order order' order'' : List α}

theorem Goes.refl (h : s.data.Lists order) : Goes C s order s order :=
  ⟨h, Plan.Evolves.refl _, TickerClock.Evolves.refl _⟩

theorem Goes.trans (h : Goes C s order s' order') (h' : Goes C s' order' s'' order'') :
    Goes C s order s'' order'' :=
  ⟨h'.lists, h.plan.trans h'.plan, h.clock.trans h'.clock⟩

/-- An access to the clock is time going on. -/
theorem goes_clock (h : s.data.Lists order) {clock : TickerClock}
    (hclock : s.data.clock.Evolves clock) :
    Goes C s order { s with data := { s.data with clock } } order :=
  ⟨h.clock clock, Plan.Evolves.single (.time _ _ hclock.present_time_le), hclock⟩

/-- An action at a moment between two states of the clock. -/
theorem evolves_at {a a' : Plan α β γ} {now later : ℕ} (hnow : a.present_time ≤ now)
    (h : Plan.Acts C { a with present_time := now } a') (hlater : a'.present_time ≤ later) :
    Plan.Evolves C a { a' with present_time := later } :=
  ((Plan.Evolves.single (.time a now hnow)).trans (Plan.Evolves.single h)).trans
    (Plan.Evolves.single (.time a' later hlater))

end

variable {α β γ : Type} [DecidableEq α] [Fintype α] {C : Command α β γ → Prop}
  {s s' s'' : Tickers α β γ} {order order' order'' : List α}

/-! ### Commands -/

theorem evolves_insert (c : TickerClock) (head : Option ℕ) :
    c.Evolves (c.update_present_time.schedule_interrupt head) :=
  (TickerClock.evolves_update c).trans (TickerClock.evolves_schedule_interrupt _ _)

/-- **`attach_us`**, unless the sleep manager has no lock left: the ticker is set at a reading `now`
of the clock, and the interrupt is scheduled last. -/
theorem attach_us_spec (h : s.data.Lists order) (i : α) (func : β) (t : ℕ) :
    ∃ (s' : Tickers α β γ) (now : ℕ) (c : TickerClock), (s.attach_us i func t =
        if (s.ticker i).function.isNone ∧ s.deep_sleep_lock = 65535 then none else some s') ∧
      s'.data.Lists (place s'.data.timestamp i (order.erase i)) ∧
      s'.plan (place s'.data.timestamp i (order.erase i)) =
        { ({ s.plan order with present_time := now } : Plan α β γ).attach i func t with
          present_time := s'.data.clock.present_time } ∧
      s.data.clock.update_present_time.present_time ≤ now ∧ now ≤ c.present_time ∧
      s.data.clock.Evolves c ∧
      s'.data.clock = c.schedule_interrupt (s'.data.head.map s'.data.timestamp) := by
  obtain ⟨d₁, hremove, hts₁, hlists₁, hclock₁⟩ := h.remove i
  have hevolves₁ : s.data.clock.Evolves d₁.clock ∧
      s.data.clock.update_present_time.Evolves d₁.clock.update_present_time := by
    rw [hclock₁]
    split_ifs
    · exact ⟨TickerClock.evolves_schedule_interrupt _ _,
        (TickerClock.update_evolves_schedule_interrupt _ _).trans (TickerClock.evolves_update _)⟩
    · exact ⟨.refl _, .refl _⟩
  have hread := TickerClock.evolves_update d₁.clock
  have hread₃ := TickerClock.evolves_update d₁.clock.update_present_time
  obtain ⟨d₃, hinsert, hts₃, hlists₃, hclock₃⟩ :=
    (hlists₁.clock d₁.clock.update_present_time).insert
      (h.chain.nodup.not_mem_erase : i ∉ order.erase i)
      (t + d₁.clock.update_present_time.present_time)
  refine ⟨⟨d₃, Function.update s.ticker i ⟨t, some func⟩,
    if (s.ticker i).function.isNone then s.deep_sleep_lock + 1 else s.deep_sleep_lock,
    s.world, s.calls⟩, d₁.clock.update_present_time.present_time,
    d₁.clock.update_present_time.update_present_time, ?_, hlists₃, ?_,
    hevolves₁.2.present_time_le, hread₃.present_time_le,
    (hevolves₁.1.trans hread).trans hread₃, hclock₃⟩
  · by_cases hnone : (s.ticker i).function.isNone = true
    · by_cases hlock : s.deep_sleep_lock = 65535
      · simp [attach_us, sleep_manager_lock_deep_sleep, hnone, hlock]
      · simp [attach_us, sleep_manager_lock_deep_sleep, hnone, hlock, setup, remove, setTicker,
          hremove, TickerData.ticker_read_us, insert_absolute, hinsert]
    · simp [attach_us, hnone, setup, remove, setTicker, hremove, TickerData.ticker_read_us,
        insert_absolute, hinsert]
  · have hts : d₃.timestamp = Function.update s.data.timestamp i
        (t + d₁.clock.update_present_time.present_time) := by
      rw [← hts₁]
      exact hts₃
    simp only [plan, Plan.attach, hts]
    rfl

theorem attach_us_goes (h : s.data.Lists order) {i : α} {func : β} {t : ℕ}
    (hC : C (.attach_us i func t)) (hs' : s.attach_us i func t = some s') :
    ∃ order', Goes C s order s' order' := by
  obtain ⟨s₀, now, c, heq, hlists, hplan, hfirst, hnow, hc, hclock⟩ := attach_us_spec h i func t
  rw [heq, Option.ite_none_left_eq_some] at hs'
  obtain rfl : s₀ = s' := Option.some.inj hs'.2
  have hschedule : c.Evolves s₀.data.clock := by
    rw [hclock]
    exact TickerClock.evolves_schedule_interrupt _ _
  refine ⟨_, hlists, ?_, hc.trans hschedule⟩
  rw [hplan]
  exact evolves_at ((TickerClock.evolves_update _).present_time_le.trans hfirst)
    (.attach _ i func t hC) (hnow.trans hschedule.present_time_le)

/-- **`detach`**, unless the sleep manager has no lock to give up: the interrupt is scheduled again
only when the ticker was the next to be called. -/
theorem detach_spec (h : s.data.Lists order) (i : α) :
    ∃ s' : Tickers α β γ, (s.detach i =
        if (s.ticker i).function.isSome ∧ s.deep_sleep_lock = 0 then none else some s') ∧
      s'.data.Lists (order.erase i) ∧
      s'.plan (order.erase i) =
        { (s.plan order).detach i with present_time := s'.data.clock.present_time } ∧
      s'.data.clock = if order.head? = some i then
        s.data.clock.schedule_interrupt (s'.data.head.map s'.data.timestamp)
      else s.data.clock := by
  obtain ⟨d, hremove, hts, hlists, hclock⟩ := h.remove i
  refine ⟨⟨d, Function.update s.ticker i { s.ticker i with function := none },
    if (s.ticker i).function.isSome then s.deep_sleep_lock - 1 else s.deep_sleep_lock,
    s.world, s.calls⟩, ?_, hlists, ?_, h.head_eq ▸ hclock⟩
  · by_cases hsome : (s.ticker i).function.isSome = true
    · by_cases hlock : s.deep_sleep_lock = 0
      · simp [detach, sleep_manager_unlock_deep_sleep, hsome, hlock, remove, hremove]
      · simp [detach, sleep_manager_unlock_deep_sleep, hsome, hlock, remove, setTicker, hremove]
    · simp [detach, hsome, remove, setTicker, hremove]
  · simp only [plan, Plan.detach, hts]
    rfl

theorem detach_goes (h : s.data.Lists order) {i : α} (hC : C (.detach i))
    (hs' : s.detach i = some s') : ∃ order', Goes C s order s' order' := by
  obtain ⟨s₀, heq, hlists, hplan, hclock⟩ := detach_spec h i
  rw [heq, Option.ite_none_left_eq_some] at hs'
  obtain rfl : s₀ = s' := Option.some.inj hs'.2
  have hevolves : s.data.clock.Evolves s₀.data.clock := by
    rw [hclock]
    split_ifs
    · exact TickerClock.evolves_schedule_interrupt _ _
    · exact TickerClock.Evolves.refl _
  refine ⟨_, hlists, ?_, hevolves⟩
  rw [hplan]
  exact evolves_at le_rfl (.detach (s.plan order) i hC) hevolves.present_time_le

/-- **Every command that succeeds keeps to the plan.** -/
theorem command_goes (h : s.data.Lists order) {c : Command α β γ} (hC : C c)
    (hc : s.command c = some s') : ∃ order', Goes C s order s' order' := by
  cases c with
  | attach_us i func t => exact attach_us_goes h hC hc
  | detach i => exact detach_goes h hC hc
  | read f =>
    obtain rfl := Option.some.inj hc
    have hclock := TickerClock.evolves_update s.data.clock
    refine ⟨order, h.clock _, ?_, hclock⟩
    exact (Plan.Evolves.single (.time _ _ hclock.present_time_le)).trans
      (Plan.Evolves.single (.read _ f hC))
  | act f =>
    obtain rfl := Option.some.inj hc
    exact ⟨order, h, Plan.Evolves.single (.act _ f hC), TickerClock.Evolves.refl _⟩

theorem commands_goes (h : s.data.Lists order) {cs : List (Command α β γ)} (hC : ∀ c ∈ cs, C c)
    (hcs : s.commands cs = some s') : ∃ order', Goes C s order s' order' := by
  induction cs generalizing s order with
  | nil =>
    obtain rfl : s = s' := Option.some.inj hcs
    exact ⟨order, .refl h⟩
  | cons c cs ih =>
    obtain ⟨s₁, hc, hcs⟩ := Option.bind_eq_some_iff.1 hcs
    obtain ⟨order₁, hgoes⟩ := command_goes h (hC c (by simp)) hc
    obtain ⟨order', hgoes'⟩ := ih hgoes.lists (fun c hc => hC c (by simp [hc])) hcs
    exact ⟨order', hgoes.trans hgoes'⟩

/-- Only the interrupt calls the attached functions. -/
theorem command_calls (h : s.data.Lists order) {c : Command α β γ} (hc : s.command c = some s') :
    s'.calls = s.calls := by
  cases c with
  | attach_us i func t =>
    obtain ⟨s₀, now, c, heq, -, hplan, -⟩ := attach_us_spec h i func t
    rw [command, heq, Option.ite_none_left_eq_some] at hc
    obtain rfl : s₀ = s' := Option.some.inj hc.2
    exact congrArg Plan.calls hplan
  | detach i =>
    obtain ⟨s₀, heq, -, hplan, -⟩ := detach_spec h i
    rw [command, heq, Option.ite_none_left_eq_some] at hc
    obtain rfl : s₀ = s' := Option.some.inj hc.2
    exact congrArg Plan.calls hplan
  | read f =>
    obtain rfl := Option.some.inj hc
    rfl
  | act f =>
    obtain rfl := Option.some.inj hc
    rfl

theorem commands_calls (h : s.data.Lists order) {cs : List (Command α β γ)}
    (hcs : s.commands cs = some s') : s'.calls = s.calls := by
  induction cs generalizing s order with
  | nil =>
    obtain rfl : s = s' := Option.some.inj hcs
    rfl
  | cons c cs ih =>
    obtain ⟨s₁, hc, hcs⟩ := Option.bind_eq_some_iff.1 hcs
    obtain ⟨order₁, hgoes⟩ := command_goes (C := fun _ => True) h trivial hc
    exact (ih hgoes.lists hcs).trans (command_calls h hc)

/-! ### The interrupt -/

variable {base : ℕ}

/-- **The handler of the event at the head**, which is due and has been taken off the list: the
event is listed again, and the function is run. -/
theorem handler_mid {p : α} {rest : List α} (h : s.data.Lists (p :: rest))
    (hs : (s.plan (p :: rest)).Sound base) (code : β → List (Command α β γ)) :
    ∃ (func : β) (mid : Tickers α β γ) (order₁ : List α),
      ({ s with data := s.data.drop p } : Tickers α β γ).handler code (s.data.event p).id =
        mid.commands (code func) ∧ (s.ticker p).function = some func ∧ mid.data.Lists order₁ ∧
      s.data.clock.Evolves mid.data.clock ∧
      mid.plan order₁ =
        { (s.plan (p :: rest)).call p with present_time := mid.data.clock.present_time } := by
  obtain ⟨func, hfunc⟩ := Option.isSome_iff_exists.1 ((hs.attached p).1 List.mem_cons_self)
  have hfunc : (s.ticker p).function = some func := hfunc
  have hp : p ∉ rest := (List.nodup_cons.1 h.chain.nodup).1
  obtain ⟨d, hinsert, hts, hlists, hclock⟩ :=
    h.drop.insert hp (s.data.timestamp p + (s.ticker p).delay)
  have hts' : d.timestamp =
      Function.update s.data.timestamp p (s.data.timestamp p + (s.ticker p).delay) := hts
  have hinsert' : (s.data.drop p).ticker_insert_event_us p
      ((s.data.drop p).timestamp p + (s.ticker p).delay) p = some d := hinsert
  refine ⟨func, ⟨d, s.ticker, s.deep_sleep_lock, s.world,
    ⟨p, s.data.timestamp p, s.data.clock.present_time⟩ :: s.calls⟩, _, ?_, hfunc, hlists, ?_, ?_⟩
  · rw [h.ids p List.mem_cons_self]
    simp only [handler, insert_absolute, hinsert', Option.map_some, Option.bind_eq_bind,
      Option.bind_some, hfunc]
    rfl
  · rw [hclock]
    exact evolves_insert _ _
  · simp only [plan, Plan.call, hts', List.erase_cons_head]

section Interrupt

variable {code : β → List (Command α β γ)} (hcode : ∀ func, ∀ c ∈ code func, C c)
include hcode

theorem handler_goes {p : α} {rest : List α} (h : s.data.Lists (p :: rest))
    (hs : (s.plan (p :: rest)).Sound base) (hdue : s.data.timestamp p ≤ s.data.clock.present_time)
    (hhandler : ({ s with data := s.data.drop p } : Tickers α β γ).handler code
      (s.data.event p).id = some s') :
    ∃ order', Goes C s (p :: rest) s' order' := by
  obtain ⟨func, mid, order₁, heq, -, hlists, hclock, hplan⟩ := handler_mid h hs code
  have hgoes : Goes C s (p :: rest) mid order₁ := by
    refine ⟨hlists, ?_, hclock⟩
    rw [hplan]
    exact evolves_at le_rfl (.call (s.plan (p :: rest)) p rfl hdue) hclock.present_time_le
  obtain ⟨order', hgoes'⟩ := commands_goes hlists (hcode func) (heq ▸ hhandler)
  exact ⟨order', hgoes.trans hgoes'⟩

/-- One round of the loop, when the event at the head is due. -/
theorem dispatch_goes {fuel : ℕ} (h : s.data.Lists order) (hs : (s.plan order).Sound base)
    (hdispatch : dispatch code fuel s = some s') : ∃ order', Goes C s order s' order' := by
  induction fuel generalizing s order with
  | zero => cases hdispatch
  | succ fuel ih =>
    rw [dispatch, h.head_eq] at hdispatch
    cases order with
    | nil =>
      obtain rfl : s = s' := Option.some.inj hdispatch
      exact ⟨[], .refl h⟩
    | cons p rest =>
      have hupdate := goes_clock (C := C) h (TickerClock.evolves_update s.data.clock)
      dsimp only [List.head?_cons] at hdispatch
      split_ifs at hdispatch with hdue
      · obtain ⟨s₁, hhandler, hdispatch⟩ := Option.bind_eq_some_iff.1 hdispatch
        obtain ⟨order₁, hgoes⟩ := handler_goes hcode (s := s.update_present_time) hupdate.lists
          (hupdate.plan.sound hs) hdue hhandler
        obtain ⟨order', hgoes'⟩ := ih hgoes.lists ((hupdate.trans hgoes).plan.sound hs) hdispatch
        exact ⟨order', (hupdate.trans hgoes).trans hgoes'⟩
      · obtain rfl := Option.some.inj hdispatch
        exact ⟨_, hupdate⟩

/-- **The interrupt keeps to the plan**, once its flag has been cleared. -/
theorem ticker_irq_handler_goes {fuel : ℕ} (h : s.data.Lists order)
    (hs : (s.plan order).Sound base) (hirq : s.ticker_irq_handler code fuel = some s') :
    ∃ order', Goes C s.clear_interrupt order s' order' := by
  obtain ⟨s₁, hdispatch, rfl⟩ := Option.map_eq_some_iff.1 hirq
  obtain ⟨order₁, hgoes⟩ := dispatch_goes hcode (s := s.clear_interrupt) (h.clock _) hs hdispatch
  have hschedule : Goes C s₁ order₁ { s₁ with data := s₁.data.schedule_interrupt } order₁ :=
    goes_clock hgoes.lists (TickerClock.evolves_schedule_interrupt _ _)
  exact ⟨order₁, hgoes.trans hschedule⟩

end Interrupt

/-! ### Runs -/

/-- The command of the main program meets `C`. -/
def Runs (C : Command α β γ → Prop) : Occurrence α β γ → Prop
  | .elapse _ => True
  | .command c _ => C c
  | .interrupt _ => True

variable {code : β → List (Command α β γ)} {fuel : ℕ} {e : Occurrence α β γ}
  {es : List (Occurrence α β γ)}

/-- What takes place finds the clock as it was, on a counter that has gone on. -/
theorem step_goes (hcode : ∀ func, ∀ c ∈ code func, C c) (h : s.data.Lists order)
    (hs : (s.plan order).Sound base) (he : Runs C e) (hstep : step code fuel s e = some s') :
    ∃ i order', i.bits = s.data.clock.interface.bits ∧ s.data.clock.interface.now ≤ i.now ∧
      Goes C (s.setInterface i) order s' order' := by
  cases e with
  | elapse d =>
    obtain rfl := Option.some.inj hstep
    exact ⟨s.data.clock.interface.elapse d, order, rfl, Nat.le_add_right _ _, .refl (h.clock _)⟩
  | command c lags =>
    obtain ⟨order', hgoes⟩ := command_goes (s := s.enter lags) (h.clock _) he hstep
    exact ⟨{ s.data.clock.interface with lags }, order', rfl, le_rfl, hgoes⟩
  | interrupt lags =>
    obtain ⟨order', hgoes⟩ := ticker_irq_handler_goes hcode (s := s.enter lags) (h.clock _) hs hstep
    exact ⟨({ s.data.clock.interface with lags } : Counter).clear_interrupt, order', rfl, le_rfl,
      hgoes⟩

/-- **Whatever takes place keeps to the plan.** -/
theorem step_refines (hcode : ∀ func, ∀ c ∈ code func, C c) (h : s.data.Lists order)
    (hs : (s.plan order).Sound base) (he : Runs C e) (hstep : step code fuel s e = some s') :
    ∃ order', s'.data.Lists order' ∧ Plan.Evolves C (s.plan order) (s'.plan order') := by
  obtain ⟨i, order', -, -, hgoes⟩ := step_goes hcode h hs he hstep
  exact ⟨order', hgoes.lists, hgoes.plan⟩

/-- **The linked list of the tickers refines the plan**, in every run of the program with its
interrupt. -/
theorem run_refines (hcode : ∀ func, ∀ c ∈ code func, C c) (h : s.data.Lists order)
    (hs : (s.plan order).Sound base) (hes : ∀ e ∈ es, Runs C e)
    (hrun : Fallible.run (step code fuel) s es = some s') :
    ∃ order', s'.data.Lists order' ∧ Plan.Evolves C (s.plan order) (s'.plan order') := by
  induction es generalizing s order with
  | nil =>
    obtain rfl : s = s' := Option.some.inj hrun
    exact ⟨order, h, Plan.Evolves.refl _⟩
  | cons e es ih =>
    obtain ⟨s₁, hstep, hrun⟩ := Option.bind_eq_some_iff.1 hrun
    obtain ⟨order₁, hlists, hplan⟩ := step_refines hcode h hs (hes e (by simp)) hstep
    obtain ⟨order', hlists', hplan'⟩ := ih hlists (hplan.sound hs)
      (fun e he => hes e (by simp [he])) hrun
    exact ⟨order', hlists', hplan.trans hplan'⟩

end Tickers

end NucleoMotor
