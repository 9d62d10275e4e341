import NucleoMotor.Rig
import NucleoMotor.TickerDeadlines
import NucleoMotor.Timer

/-!
# The encoder on its ticker

The program of which the encoder's ticker is a part: the ticker `i` calls `saveData`, which reads
the encoder's timer, and nothing else samples (`Other`).  In a prompt run with a period longer than
the interrupt may be late, the rig runs as a `Rig` whose timer's readings increase, as its results
assume, and each reading is on time (`sampled_of_run`).
-/

namespace NucleoMotor

open Runs Agenda

namespace Sampling

variable {ρ : Type} [Arith ρ]

/-- The timer of an encoder whose constructor started it at the time `n`. -/
def timer (n : ℕ) : Timer := (Timer.construct n).start n

@[simp] theorem timer_read (n now : ℕ) : (timer n).read_high_resolution_us now = now - n := by
  simp [timer, Timer.start, Timer.construct, Timer.reset, Timer.read_high_resolution_us,
    Timer.slicetime]

/-- `saveData`, when the ticker shows `now`. -/
def saveData (n now : ℕ) (r : Rig ρ) : Rig ρ :=
  r.step (.interrupt (.saveData ((timer n).read_high_resolution_us now)))

/-- A pulse, or a call of the main loop. -/
def Plain : RigEvent ρ → Prop
  | .interrupt .incrementPulse => True
  | .interrupt (.saveData _) => False
  | .call _ => True

/-- The readings of the timer. -/
def readings (rs : List (RigEvent ρ)) : List ℕ :=
  rs.filterMap fun e => match e with
    | .interrupt (.saveData currentTime) => some currentTime
    | _ => none

omit [Arith ρ] in
theorem readings_plain {rs : List (RigEvent ρ)} {e : RigEvent ρ} (he : Plain e) :
    readings (rs ++ [e]) = readings rs := by
  rcases e with (_ | currentTime) | c
  · simp [readings]
  · cases he
  · simp [readings]

omit [Arith ρ] in
theorem readings_saveData {rs : List (RigEvent ρ)} {currentTime : ℕ} :
    readings (rs ++ [.interrupt (.saveData currentTime)]) = readings rs ++ [currentTime] := by
  simp [readings]

omit [Arith ρ] in
theorem spaced_plain {e : RigEvent ρ} (he : Plain e) (window : ℕ) (r : Rig ρ) :
    r.Spaced window e := by
  rcases e with (_ | currentTime) | c
  · trivial
  · cases he
  · trivial

omit [Arith ρ] in
theorem clocked_of_spaced {window : ℕ} (hwindow : 0 < window) {r : Rig ρ} {e : RigEvent ρ}
    (h : r.Spaced window e) : r.Clocked e := by
  rcases e with (_ | currentTime) | c
  · trivial
  · have hle : r.encoder.previousSaveTime + window ≤ currentTime := h
    show r.encoder.previousSaveTime < currentTime
    omega
  · trivial

theorem previousSaveTime_plain {e : RigEvent ρ} (he : Plain e) (r : Rig ρ) :
    (r.step e).encoder.previousSaveTime = r.encoder.previousSaveTime := by
  rcases e with (_ | currentTime) | c
  · rfl
  · cases he
  · rfl

variable {α β : Type}

/-- A command that neither samples nor touches the ticker `i` of the function `sampler`. -/
def Other (i : α) (sampler : β) : Command α β (Rig ρ) → Prop
  | .attach_us j func _ => j ≠ i ∧ func ≠ sampler
  | .detach j => j ≠ i
  | .read f => ∀ now r, f now r = r
  | .act f => ∃ e, Plain e ∧ f = fun r => r.step e

/-- The timer was started at `n`, the first sample is due at `first` and the others one `period`
after another; no sample is later than `late`, in ticks of the frequency `f`, so that a `window` is
left to the next. -/
structure Schedule where
  n : ℕ
  first : ℕ
  period : ℕ
  f : ℕ
  late : ℕ
  window : ℕ
  n_le : n ≤ first
  late_le : late * 1000000 + window * f ≤ period * f

/-- The reading `x` is that of the `k`-th sample. -/
def Schedule.OnTime (p : Schedule) (k x : ℕ) : Prop :=
  p.first + k * p.period ≤ x + p.n ∧
    (x + p.n) * p.f < (p.first + k * p.period + 1) * p.f + p.late * 1000000

/-- Since the rig `r₀` its events have been `rs`. -/
structure Samples (p : Schedule) (i : α) (sampler : β) (r₀ : Rig ρ) (s : Tickers α β (Rig ρ))
    (rs : List (RigEvent ρ)) : Prop where
  ticker : s.ticker i = ⟨p.period, some sampler⟩
  others : ∀ j, j ≠ i → (s.ticker j).function ≠ some sampler
  world : s.world = exec Rig.step r₀ rs
  spaced : AllSteps Rig.step (Rig.Spaced p.window) r₀ rs
  next : s.data.timestamp i = p.first + (readings rs).length * p.period
  last : s.world.encoder.previousSaveTime + p.n + p.window ≤ s.data.timestamp i
  on_time : ∀ k x, (readings rs)[k]? = some x → p.OnTime k x

variable {p : Schedule} {i : α} {sampler : β} {r₀ : Rig ρ} {s s' : Tickers α β (Rig ρ)}
  {rs : List (RigEvent ρ)}

/-- What happens to the other tickers and to the clock is no concern of the samples. -/
theorem Samples.frame (h : Samples p i sampler r₀ s rs) (hticker : s'.ticker i = s.ticker i)
    (hothers : ∀ j, j ≠ i → (s'.ticker j).function ≠ some sampler)
    (htimestamp : s'.data.timestamp i = s.data.timestamp i) (hworld : s'.world = s.world) :
    Samples p i sampler r₀ s' rs :=
  ⟨hticker.trans h.ticker, hothers, hworld.trans h.world, h.spaced, htimestamp.trans h.next,
    by rw [hworld, htimestamp]; exact h.last, h.on_time⟩

/-- A pulse, or a call of the main loop. -/
theorem Samples.plain (h : Samples p i sampler r₀ s rs) {e : RigEvent ρ} (he : Plain e) :
    Samples p i sampler r₀ { s with world := s.world.step e } (rs ++ [e]) := by
  refine ⟨h.ticker, h.others, ?_, ?_, ?_, ?_, ?_⟩
  · simp [h.world]
  · exact allSteps_append.2 ⟨h.spaced, spaced_plain he _ _, trivial⟩
  · rw [readings_plain he]
    exact h.next
  · show (s.world.step e).encoder.previousSaveTime + p.n + p.window ≤ _
    rw [previousSaveTime_plain he]
    exact h.last
  · rw [readings_plain he]
    exact h.on_time

/-- **A sample on time.** -/
theorem Samples.sample (h : Samples p i sampler r₀ s rs) {now : ℕ}
    (hdue : s.data.timestamp i ≤ now)
    (hlate : now * p.f < (s.data.timestamp i + 1) * p.f + p.late * 1000000)
    (hticker : s'.ticker = s.ticker)
    (htimestamp : s'.data.timestamp i = s.data.timestamp i + p.period)
    (hworld : s'.world = saveData p.n now s.world) :
    Samples p i sampler r₀ s' (rs ++ [.interrupt (.saveData (now - p.n))]) := by
  have hnext := h.next
  have hlast := h.last
  have hn := p.n_le
  have hworld' : s'.world = s.world.step (.interrupt (.saveData (now - p.n))) := by
    rw [hworld, saveData, timer_read]
  have hlength : (readings (rs ++ [.interrupt (.saveData (now - p.n))])).length =
      (readings rs).length + 1 := by
    rw [readings_saveData, List.length_append]
    rfl
  -- the next sample is due a window after the latest reading that this one may have
  have hbefore : now + p.window < s.data.timestamp i + 1 + p.period := by
    have hle := p.late_le
    have hmul : (now + p.window) * p.f < (s.data.timestamp i + 1 + p.period) * p.f := by
      rw [add_mul, add_mul _ p.period]
      omega
    exact Nat.lt_of_mul_lt_mul_right hmul
  refine ⟨by rw [hticker]; exact h.ticker, by rw [hticker]; exact h.others, ?_, ?_, ?_, ?_, ?_⟩
  · rw [hworld', h.world, exec_append, exec_cons, exec_nil]
  · refine allSteps_append.2 ⟨h.spaced, ?_, trivial⟩
    rw [← h.world]
    show s.world.encoder.previousSaveTime + p.window ≤ now - p.n
    omega
  · rw [htimestamp, hnext, hlength, add_mul, one_mul, add_assoc]
  · rw [hworld', htimestamp]
    show now - p.n + p.n + p.window ≤ _
    omega
  · intro k x hx
    rw [readings_saveData] at hx
    by_cases hk : k < (readings rs).length
    · rw [List.getElem?_append_left hk] at hx
      exact h.on_time k x hx
    · rw [List.getElem?_append_right (by omega), List.getElem?_singleton] at hx
      split_ifs at hx with hzero
      obtain rfl : k = (readings rs).length := by omega
      obtain rfl := Option.some.inj hx
      have hsub : now - p.n + p.n = now := by omega
      rw [Schedule.OnTime, hsub, ← hnext]
      exact ⟨hdue, hlate⟩

/-! ### The rest of the program -/

variable [DecidableEq α] [Fintype α] {order : List α} {fuel : ℕ}

/-- **What the rest of the program does leaves the samples as they are.** -/
theorem Samples.command (h : Samples p i sampler r₀ s rs) (hlists : s.data.Lists order)
    {c : Command α β (Rig ρ)} (hc : Other i sampler c) (hrun : s.command c = some s') :
    s'.data.timestamp i = s.data.timestamp i ∧ ∃ rs', Samples p i sampler r₀ s' rs' := by
  cases c with
  | attach_us j func t =>
    obtain ⟨s₀, now, clock, heq, -, hplan, -⟩ := Tickers.attach_us_spec hlists j func t
    rw [Tickers.command, heq, Option.ite_none_left_eq_some] at hrun
    obtain rfl : s₀ = s' := Option.some.inj hrun.2
    obtain ⟨hji, hfunc⟩ := hc
    have hticker : s₀.ticker = Function.update s.ticker j ⟨t, some func⟩ :=
      congrArg Plan.ticker hplan
    have hts : s₀.data.timestamp = Function.update s.data.timestamp j (t + now) :=
      congrArg Plan.timestamp hplan
    have htimestamp : s₀.data.timestamp i = s.data.timestamp i := by
      rw [hts, Function.update_of_ne hji.symm]
    refine ⟨htimestamp, rs, h.frame ?_ (fun m hm => ?_) htimestamp (congrArg Plan.world hplan)⟩
    · rw [hticker, Function.update_of_ne hji.symm]
    · rw [hticker]
      by_cases hmj : m = j
      · subst hmj
        simpa using hfunc
      · rw [Function.update_of_ne hmj]
        exact h.others m hm
  | detach j =>
    obtain ⟨s₀, heq, -, hplan, -⟩ := Tickers.detach_spec hlists j
    rw [Tickers.command, heq, Option.ite_none_left_eq_some] at hrun
    obtain rfl : s₀ = s' := Option.some.inj hrun.2
    have hji : j ≠ i := hc
    have hticker : s₀.ticker = Function.update s.ticker j { s.ticker j with function := none } :=
      congrArg Plan.ticker hplan
    have hts : s₀.data.timestamp = s.data.timestamp := congrArg Plan.timestamp hplan
    refine ⟨congrFun hts i, rs,
      h.frame ?_ (fun m hm => ?_) (congrFun hts i) (congrArg Plan.world hplan)⟩
    · rw [hticker, Function.update_of_ne hji.symm]
    · rw [hticker]
      by_cases hmj : m = j
      · subst hmj
        simp
      · rw [Function.update_of_ne hmj]
        exact h.others m hm
  | read f =>
    obtain rfl := Option.some.inj hrun
    exact ⟨rfl, rs, h.frame rfl h.others rfl (hc _ _)⟩
  | act f =>
    obtain rfl := Option.some.inj hrun
    obtain ⟨e, he, rfl⟩ := hc
    exact ⟨rfl, _, h.plain he⟩

theorem Samples.commands {cs : List (Command α β (Rig ρ))} (h : Samples p i sampler r₀ s rs)
    (hlists : s.data.Lists order) (hcs : ∀ c ∈ cs, Other i sampler c)
    (hrun : s.commands cs = some s') :
    s'.data.timestamp i = s.data.timestamp i ∧ ∃ rs', Samples p i sampler r₀ s' rs' := by
  induction cs generalizing s order rs with
  | nil =>
    obtain rfl : s = s' := Option.some.inj hrun
    exact ⟨rfl, rs, h⟩
  | cons c cs ih =>
    obtain ⟨s₁, hc, hrun⟩ := Option.bind_eq_some_iff.1 hrun
    obtain ⟨htimestamp, rs₁, h₁⟩ := h.command hlists (hcs c (by simp)) hc
    obtain ⟨order₁, hgoes⟩ := Tickers.command_goes (C := fun _ => True) hlists trivial hc
    obtain ⟨htimestamp', rs', h'⟩ := ih h₁ hgoes.lists (fun c hc => hcs c (by simp [hc])) hrun
    exact ⟨htimestamp'.trans htimestamp, rs', h'⟩

/-! ### The interrupt -/

/-- What is known of the program: the function `sampler` is `saveData`, and nothing else samples. -/
structure Program (n : ℕ) (i : α) (sampler : β) (code : β → List (Command α β (Rig ρ))) : Prop where
  sample : code sampler = [.read (saveData n)]
  others : ∀ func, func ≠ sampler → ∀ c ∈ code func, Other i sampler c

variable {code : β → List (Command α β (Rig ρ))} {base m : ℕ}

/-- The function of the event at the head, which is due. -/
theorem Samples.handler {q : α} {rest : List α} (h : Samples p i sampler r₀ s rs)
    (hprogram : Program p.n i sampler code) (hlists : s.data.Lists (q :: rest))
    (hs : (s.plan (q :: rest)).Sound base) (hdue : s.data.timestamp q ≤ s.data.clock.present_time)
    (hm : m ≤ s.data.timestamp i)
    (hlate : ∀ c, s.data.clock.Evolves c → c.present_time * p.f < (m + 1) * p.f + p.late * 1000000)
    (hrun : ({ s with data := s.data.drop q } : Tickers α β (Rig ρ)).handler code
      (s.data.event q).id = some s') :
    s.data.timestamp i ≤ s'.data.timestamp i ∧ ∃ rs', Samples p i sampler r₀ s' rs' := by
  obtain ⟨func, mid, order₁, heq, hfunc, hlists₁, hclock, hplan⟩ :=
    Tickers.handler_mid hlists hs code
  have hts : mid.data.timestamp =
      Function.update s.data.timestamp q (s.data.timestamp q + (s.ticker q).delay) :=
    congrArg Plan.timestamp hplan
  have hticker : mid.ticker = s.ticker := congrArg Plan.ticker hplan
  have hworld : mid.world = s.world := congrArg Plan.world hplan
  have hcommands := heq.symm.trans hrun
  by_cases hqi : q = i
  · subst hqi
    obtain rfl : sampler = func := by simpa [h.ticker] using hfunc
    rw [hprogram.sample] at hcommands
    obtain rfl := Option.some.inj hcommands
    have hread := TickerClock.evolves_update mid.data.clock
    have hnow : s.data.timestamp q ≤ mid.data.clock.update_present_time.present_time :=
      hdue.trans (hclock.trans hread).present_time_le
    have htimestamp : mid.data.timestamp q = s.data.timestamp q + p.period := by
      rw [hts, Function.update_self, h.ticker]
    refine ⟨?_, _, h.sample hnow ?_ hticker htimestamp ?_⟩
    · show _ ≤ mid.data.timestamp q
      omega
    · have hlt := hlate _ (hclock.trans hread)
      have hmul : (m + 1) * p.f ≤ (s.data.timestamp q + 1) * p.f :=
        Nat.mul_le_mul_right _ (by omega)
      omega
    · show saveData p.n _ mid.world = _
      rw [hworld]
  · have hother : func ≠ sampler := by
      rintro rfl
      exact h.others q hqi hfunc
    have htimestamp : mid.data.timestamp i = s.data.timestamp i := by
      rw [hts, Function.update_of_ne (Ne.symm hqi)]
    have hmid : Samples p i sampler r₀ mid rs :=
      h.frame (by rw [hticker]) (by rw [hticker]; exact h.others) htimestamp hworld
    obtain ⟨hsame, rs', h'⟩ := hmid.commands hlists₁ (hprogram.others func hother) hcommands
    exact ⟨(hsame.trans htimestamp).ge, rs', h'⟩

/-- The loop of the interrupt. -/
theorem Samples.dispatch (h : Samples p i sampler r₀ s rs) (hprogram : Program p.n i sampler code)
    (hlists : s.data.Lists order) (hs : (s.plan order).Sound base) (hm : m ≤ s.data.timestamp i)
    (hlate : ∀ c, s.data.clock.Evolves c → c.present_time * p.f < (m + 1) * p.f + p.late * 1000000)
    (hrun : Tickers.dispatch code fuel s = some s') : ∃ rs', Samples p i sampler r₀ s' rs' := by
  induction fuel generalizing s order rs with
  | zero => cases hrun
  | succ fuel ih =>
    rw [Tickers.dispatch, hlists.head_eq] at hrun
    cases order with
    | nil =>
      obtain rfl : s = s' := Option.some.inj hrun
      exact ⟨rs, h⟩
    | cons q rest =>
      have hread := TickerClock.evolves_update s.data.clock
      have hupdate := Tickers.goes_clock (C := fun _ => True) hlists hread
      have h₁ : Samples p i sampler r₀ s.update_present_time rs := h.frame rfl h.others rfl rfl
      dsimp only [List.head?_cons] at hrun
      split_ifs at hrun with hdue
      · obtain ⟨s₂, hhandler, hrun⟩ := Option.bind_eq_some_iff.1 hrun
        obtain ⟨order₂, hgoes⟩ := Tickers.handler_goes (C := fun _ => True) (fun _ _ _ => trivial)
          (s := s.update_present_time) hupdate.lists (hupdate.plan.sound hs) hdue hhandler
        obtain ⟨hle, rs₂, h₂⟩ := h₁.handler hprogram hupdate.lists (hupdate.plan.sound hs) hdue hm
          (fun c hc => hlate c (hread.trans hc)) hhandler
        exact ih h₂ hgoes.lists ((hupdate.trans hgoes).plan.sound hs) (hm.trans hle)
          (fun c hc => hlate c ((hread.trans hgoes.clock).trans hc)) hrun
      · obtain rfl := Option.some.inj hrun
        exact ⟨rs, h₁⟩

/-! ### Runs -/

/-- The command of the main program neither samples nor touches the ticker. -/
def OtherOccurrence (i : α) (sampler : β) : Tickers.Occurrence α β (Rig ρ) → Prop
  | .elapse _ => True
  | .command c _ => Other i sampler c
  | .interrupt _ => True

variable {interface : Counter} {L D : ℕ} {e : Tickers.Occurrence α β (Rig ρ)}
  {es es' : List (Tickers.Occurrence α β (Rig ρ))}

/-- **Whatever takes place in time, the samples are taken in time.** -/
theorem Samples.step (h : Samples p i sampler r₀ s rs) (hprogram : Program p.n i sampler code)
    (hserved : Tickers.Served interface L D base s order)
    (hin : Tickers.InTime interface.bits L D) (hf : p.f = interface.frequency)
    (hp : p.late = L + D) (he : s.Prompt L D e) (hother : OtherOccurrence i sampler e)
    (hstep : Tickers.step code fuel s e = some s') : ∃ rs', Samples p i sampler r₀ s' rs' := by
  cases e with
  | elapse d =>
    obtain rfl := Option.some.inj hstep
    exact ⟨rs, h.frame rfl h.others rfl rfl⟩
  | command c lags =>
    have henter : Samples p i sampler r₀ (s.enter lags) rs := h.frame rfl h.others rfl rfl
    exact (henter.command (hserved.reached.lists.clock _) hother hstep).2
  | interrupt lags =>
    obtain ⟨seen, hstarts⟩ := hserved.starts hin he
    obtain ⟨s₁, hdispatch, rfl⟩ := Option.map_eq_some_iff.1 hstep
    have hi : i ∈ order := (hserved.reached.sound.attached i).2 (by simp [Tickers.plan, h.ticker])
    have hclear : Samples p i sampler r₀ (s.enter lags).clear_interrupt rs :=
      h.frame rfl h.others rfl rfl
    have hlate : ∀ c, (s.enter lags).clear_interrupt.data.clock.Evolves c →
        c.present_time * p.f < (s.data.timestamp i + 1) * p.f + p.late * 1000000 := by
      intro c hc
      rw [hf, hp, ← hserved.frequency]
      exact hstarts.present_lt he.2 hi hc
    obtain ⟨rs', h'⟩ := hclear.dispatch hprogram (hstarts.lists.clock _) hserved.reached.sound
      (le_refl (s.data.timestamp i)) hlate hdispatch
    exact ⟨rs', h'.frame rfl h'.others rfl rfl⟩

theorem Samples.run (h : Samples p i sampler r₀ s rs) (hprogram : Program p.n i sampler code)
    (hserved : Tickers.Served interface L D base s order)
    (hin : Tickers.InTime interface.bits L D) (hf : p.f = interface.frequency)
    (hp : p.late = L + D)
    (hprompt : Fallible.AllSteps (Tickers.step code fuel) (Tickers.Prompt L D) s es)
    (hother : ∀ e ∈ es, OtherOccurrence i sampler e)
    (hrun : Fallible.run (Tickers.step code fuel) s es = some s') :
    ∃ rs', Samples p i sampler r₀ s' rs' := by
  induction es generalizing s order rs with
  | nil =>
    obtain rfl : s = s' := Option.some.inj hrun
    exact ⟨rs, h⟩
  | cons e es ih =>
    obtain ⟨s₁, hstep, hrun⟩ := Option.bind_eq_some_iff.1 hrun
    obtain ⟨rs₁, h₁⟩ := h.step hprogram hserved hin hf hp hprompt.1 (hother e (by simp)) hstep
    obtain ⟨order₁, hserved₁⟩ := hserved.step hin hprompt.1 hstep
    exact ih h₁ hserved₁ (hprompt.2 s₁ hstep) (fun e he => hother e (by simp [he])) hrun

/-- **The encoder is sampled on time.**  From a state `s` in which the ticker `i` calls `saveData`
and is the only one that does, the rig runs as a `Rig` whose timer is read once in each period: the
`k`-th reading is that of the time at which the `k`-th sample is due or less than `L + D` ticks and a
microsecond later, and no sample that was due earlier than that is missing.  So the readings
increase, by no less than is left of a period. -/
theorem sampled_of_run {event : α → TickerEvent α} {delay : α → ℕ} {world : Rig ρ}
    {n period window : ℕ} (hvalid : TickerClock.Valid interface) (hnone : interface.pending = none)
    (hin : Tickers.InTime interface.bits L D) (hlags : interface.lags.sum ≤ D)
    (hwindow : 0 < window)
    (hperiod : (L + D) * 1000000 + window * interface.frequency ≤ period * interface.frequency)
    (hsampler : code sampler = [.read (saveData n)])
    (hcode : ∀ func, func ≠ sampler → ∀ c ∈ code func, Other i sampler c)
    (hprompt : Fallible.AllSteps (Tickers.step code fuel) (Tickers.Prompt L D)
      (Tickers.start interface event delay base world) (es ++ es'))
    (hrun : Fallible.run (Tickers.step code fuel)
      (Tickers.start interface event delay base world) es = some s)
    (hrun' : Fallible.run (Tickers.step code fuel) s es' = some s')
    (hticker : s.ticker i = ⟨period, some sampler⟩)
    (hothers : ∀ j, j ≠ i → (s.ticker j).function ≠ some sampler)
    (hfirst : s.world.encoder.previousSaveTime + n + window ≤ s.data.timestamp i)
    (hes' : ∀ c lags, .command c lags ∈ es' → Other i sampler c) :
    ∃ rs, s'.world = exec Rig.step s.world rs ∧ AllSteps Rig.step Rig.Clocked s.world rs ∧
      AllSteps Rig.step (Rig.Spaced window) s.world rs ∧
      s'.data.timestamp i = s.data.timestamp i + (readings rs).length * period ∧
      (s'.data.clock.interface.now - interface.lag.now) * 1000000 <
        (s.data.timestamp i + (readings rs).length * period + 1) * interface.frequency +
          (L + D) * 1000000 ∧
      ∀ k x, (readings rs)[k]? = some x → s.data.timestamp i + k * period ≤ x + n ∧
        (x + n) * interface.frequency <
          (s.data.timestamp i + k * period + 1) * interface.frequency + (L + D) * 1000000 := by
  obtain ⟨hprompt₁, hprompt₂⟩ := Fallible.allSteps_append.1 hprompt
  obtain ⟨order, hserved⟩ := Tickers.served_run hvalid hnone hin hlags hprompt₁ hrun
  let p : Schedule :=
    ⟨n, s.data.timestamp i, period, interface.frequency, L + D, window, by omega, hperiod⟩
  have h : Samples p i sampler s.world s [] :=
    ⟨hticker, hothers, rfl, trivial, by simp [p, readings], hfirst, by simp [readings]⟩
  obtain ⟨rs, h'⟩ := h.run ⟨hsampler, hcode⟩ hserved hin rfl rfl (hprompt₂ s hrun)
    (fun e he => by cases e with
      | command c lags => exact hes' c lags he
      | _ => trivial) hrun'
  have hclocked : AllSteps Rig.step Rig.Clocked s.world rs :=
    h'.spaced.imp fun _ _ he => clocked_of_spaced hwindow he
  obtain ⟨order', hserved'⟩ := Tickers.served_run (s := s') hvalid hnone hin hlags hprompt (by
    rw [Fallible.run_append, hrun]
    exact hrun')
  have hattached : i ∈ order' := (hserved'.reached.sound.attached i).2 (by
    show (s'.ticker i).function.isSome
    rw [h'.ticker]
    rfl)
  have hwaiting := hserved'.waiting hattached
  rw [h'.next] at hwaiting
  exact ⟨rs, h'.world, hclocked, h'.spaced, h'.next, hwaiting, h'.on_time⟩

/-- A sample every 800 µs, and pulses from another ticker. -/
theorem sampled_of_run_applies :
    let code : Bool → List (Command Bool Bool (Rig ℚ)) := fun func =>
      if func then [.read (saveData 0)] else [.act fun r => r.step (.interrupt .incrementPulse)]
    ∃ s s', Fallible.run (Tickers.step code 9)
        (Tickers.start ⟨32768, 8, 0, 0, none, []⟩ (fun i => ⟨0, i, none⟩) (fun _ => 0) 0
          (Rig.start 7392 10 .X4 [] (4 / 25) (1 / 100) 24))
        [.command (.attach_us true true 800) [1]] = some s ∧
      Fallible.run (Tickers.step code 9) s [.command (.attach_us false false 300) [], .elapse 12,
        .interrupt [1], .elapse 14, .interrupt [1, 0, 1]] = some s' ∧
      ∃ rs, s'.world = exec Rig.step s.world rs ∧ AllSteps Rig.step Rig.Clocked s.world rs ∧
        AllSteps Rig.step (Rig.Spaced 60) s.world rs ∧
        s'.data.timestamp true = s.data.timestamp true + (readings rs).length * 800 ∧
        (s'.data.clock.interface.now - 0) * 1000000 <
          (s.data.timestamp true + (readings rs).length * 800 + 1) * 32768 + (20 + 3) * 1000000 ∧
        ∀ k x, (readings rs)[k]? = some x → s.data.timestamp true + k * 800 ≤ x + 0 ∧
          (x + 0) * 32768 <
            (s.data.timestamp true + k * 800 + 1) * 32768 + (20 + 3) * 1000000 := by
  intro code
  have hattached : ∀ s ∈ Fallible.run (Tickers.step code 9)
      (Tickers.start ⟨32768, 8, 0, 0, none, []⟩ (fun i => ⟨0, i, none⟩) (fun _ => 0) 0
        (Rig.start 7392 10 .X4 [] (4 / 25) (1 / 100) 24))
      [.command (.attach_us true true 800) [1]], s.ticker true = ⟨800, some true⟩ ∧
        (∀ j, j ≠ true → (s.ticker j).function ≠ some true) ∧
        s.world.encoder.previousSaveTime + 0 + 60 ≤ s.data.timestamp true := by
    decide +kernel
  obtain ⟨s', hs'⟩ := Option.isSome_iff_exists.1 (by decide +kernel : ((Fallible.run
    (Tickers.step code 9) (Tickers.start ⟨32768, 8, 0, 0, none, []⟩ (fun i => ⟨0, i, none⟩)
      (fun _ => 0) 0 (Rig.start 7392 10 .X4 [] (4 / 25) (1 / 100) 24))
      [.command (.attach_us true true 800) [1]]).bind fun s => Fallible.run (Tickers.step code 9) s
        [.command (.attach_us false false 300) [], .elapse 12, .interrupt [1], .elapse 14,
          .interrupt [1, 0, 1]]).isSome)
  obtain ⟨s, hrun, hrun'⟩ := Option.bind_eq_some_iff.1 hs'
  obtain ⟨hticker, hothers, hfirst⟩ := hattached s hrun
  have hcode : ∀ func, func ≠ true → ∀ c ∈ code func, Other true true c := by
    intro func hfunc c hc
    obtain rfl : func = false := by simpa using hfunc
    obtain rfl : c = .act fun r => r.step (.interrupt .incrementPulse) := by simpa [code] using hc
    exact ⟨.interrupt .incrementPulse, trivial, rfl⟩
  have hsampled := sampled_of_run (L := 20) (D := 3) (by decide) rfl
    ⟨by decide, by decide, by decide⟩ (by decide) (by decide) (by decide) rfl hcode
    (by decide +kernel) hrun hrun' hticker hothers hfirst (by simp [Other])
  exact ⟨s, s', hrun, hrun', hsampled⟩

end Sampling

end NucleoMotor
