import NucleoMotor.TickerPlan

/-!
# The ticker's code returns

The loops over the list end because the list does, and the sleep manager never stops the program
when there are locks for all tickers.  The interrupt's loop goes on as long as something is due, and
time passes while it runs: a period that is shorter than its function takes makes the system hang,
as `Ticker.h` notes.

* `Plan.Evolves.calls_le`: if all periods are at least `P`, no more than one call in `P` is made of
  each ticker.
* `Counter.Spends`: the accesses to the counter that the code makes, each of which takes its time.
* `dispatch_rounds`, `interrupt_total`: if the functions of all tickers together take less than `P`,
  the loop catches up, after a number of calls that does not depend on how long time goes on to pass.
-/

namespace NucleoMotor

open Agenda

/-! ### The rate of the calls -/

namespace Plan

variable {α β γ : Type} [DecidableEq α] {C : Command α β γ → Prop} {a a' : Plan α β γ}
  {base P m : ℕ} {g : α → ℕ}

def PeriodsGe (P : ℕ) (a : Plan α β γ) : Prop :=
  ∀ i, (a.ticker i).function.isSome → P ≤ (a.ticker i).delay

theorem PeriodsGe.acts (h : a.PeriodsGe P) (hC : ∀ i func t, C (.attach_us i func t) → P ≤ t)
    (hact : Acts C a a') : a'.PeriodsGe P := by
  cases hact with
  | attach i func t hc =>
    intro j hj
    show P ≤ (Function.update a.ticker i ⟨t, some func⟩ j).delay
    have hj' : (Function.update a.ticker i ⟨t, some func⟩ j).function.isSome := hj
    by_cases hji : j = i
    · subst hji
      simpa using hC _ _ _ hc
    · rw [Function.update_of_ne hji] at hj' ⊢
      exact h j hj'
  | detach i hc =>
    intro j hj
    have hj' : (Function.update a.ticker i { a.ticker i with function := none } j).function.isSome :=
      hj
    show P ≤ (Function.update a.ticker i { a.ticker i with function := none } j).delay
    by_cases hji : j = i
    · subst hji
      simp at hj'
    · rw [Function.update_of_ne hji] at hj' ⊢
      exact h j hj'
  | _ => exact h

theorem Evolves.periodsGe (h : Evolves C a a') (hP : a.PeriodsGe P)
    (hC : ∀ i func t, C (.attach_us i func t) → P ≤ t) : a'.PeriodsGe P :=
  h.invariant hP fun _ _ hb hact => hb.acts hC hact

/-- No call of `i` is due before `g i`, whenever it is attached. -/
structure Paced (P : ℕ) (g : α → ℕ) (a : Plan α β γ) : Prop where
  due : ∀ i ∈ a.order, g i ≤ a.timestamp i
  near : ∀ i, g i ≤ a.present_time + P

theorem Paced.attach (h : a.Paced P g) (i : α) (func : β) {t : ℕ} (ht : P ≤ t) :
    (a.attach i func t).Paced P g where
  due := by
    intro j hj
    show g j ≤ Function.update a.timestamp i (t + a.present_time) j
    by_cases hji : j = i
    · subst hji
      rw [Function.update_self]
      have hnear := h.near j
      omega
    · rw [Function.update_of_ne hji]
      exact h.due j (List.mem_of_mem_erase ((mem_place.1 hj).resolve_left hji))
  near := h.near

/-- After a call the next is not due for a period. -/
theorem Paced.call (h : a.Paced P g) {p : α} (hp : p ∈ a.order)
    (hdue : a.timestamp p ≤ a.present_time) (hdelay : P ≤ (a.ticker p).delay) :
    (a.call p).Paced P (Function.update g p (g p + P)) where
  due := by
    intro j hj
    show _ ≤ Function.update a.timestamp p (a.timestamp p + (a.ticker p).delay) j
    have hgp := h.due p hp
    by_cases hjp : j = p
    · subst hjp
      rw [Function.update_self, Function.update_self]
      omega
    · rw [Function.update_of_ne hjp, Function.update_of_ne hjp]
      exact h.due j (List.mem_of_mem_erase ((mem_place.1 hj).resolve_left hjp))
  near := by
    intro j
    show _ ≤ a.present_time + P
    have hgp := h.due p hp
    by_cases hjp : j = p
    · subst hjp
      rw [Function.update_self]
      omega
    · rw [Function.update_of_ne hjp]
      exact h.near j

variable [Fintype α]

/-- **Every call takes a period.** -/
theorem Paced.acts (h : a.Paced P g) (hs : a.Sound base) (hP : a.PeriodsGe P)
    (hC : ∀ i func t, C (.attach_us i func t) → P ≤ t) (hact : Acts C a a') :
    ∃ g', a'.Paced P g' ∧ ∑ i, g' i + P * a.calls.length = ∑ i, g i + P * a'.calls.length := by
  cases hact with
  | time now hnow =>
    exact ⟨g, ⟨h.due, fun i => (h.near i).trans (Nat.add_le_add_right hnow P)⟩, rfl⟩
  | attach i func t hc => exact ⟨g, h.attach i func (hC _ _ _ hc), rfl⟩
  | detach i hc => exact ⟨g, ⟨fun j hj => h.due j (List.mem_of_mem_erase hj), h.near⟩, rfl⟩
  | read f => exact ⟨g, ⟨h.due, h.near⟩, rfl⟩
  | act f => exact ⟨g, ⟨h.due, h.near⟩, rfl⟩
  | call p hp hdue =>
    have hmem := List.mem_of_head? hp
    refine ⟨_, h.call hmem hdue (hP p ((hs.attached p).1 hmem)), ?_⟩
    have hsum := Finset.sum_update_of_mem (Finset.mem_univ p) g (g p + P)
    have hothers := Finset.sum_eq_add_sum_sdiff_singleton_of_mem (Finset.mem_univ p) g
    have hlength : (a.call p).calls.length = a.calls.length + 1 := rfl
    rw [hsum, hlength, Nat.mul_succ]
    omega

/-- **No more than one call in `P` is made of each ticker**, if nothing is due before `m`. -/
theorem Evolves.calls_le (h : Evolves C a a') (hs : a.Sound base) (hP : a.PeriodsGe P)
    (hC : ∀ i func t, C (.attach_us i func t) → P ≤ t) (horder : ∀ i ∈ a.order, m ≤ a.timestamp i)
    (hm : m ≤ a.present_time + P) :
    P * a'.calls.length + Fintype.card α * m ≤
      P * a.calls.length + Fintype.card α * (a'.present_time + P) := by
  have hinv := h.invariant (P := fun b => b.Sound base ∧ b.PeriodsGe P ∧
    ∃ g, b.Paced P g ∧ ∑ i, g i + P * a.calls.length = Fintype.card α * m + P * b.calls.length)
    ⟨hs, hP, fun _ => m, ⟨horder, fun _ => hm⟩, by simp⟩ ?_
  · obtain ⟨-, -, g, hpaced, hsum⟩ := hinv
    have hle : ∑ i, g i ≤ ∑ _ : α, (a'.present_time + P) :=
      Finset.sum_le_sum fun i _ => hpaced.near i
    rw [Finset.sum_const, Finset.card_univ, smul_eq_mul] at hle
    omega
  · rintro b b' ⟨hs, hP, g, hpaced, hsum⟩ hact
    obtain ⟨g', hpaced', hsum'⟩ := hpaced.acts hs hP hC hact
    exact ⟨hs.acts hact, hP.acts hC hact, g', hpaced', by omega⟩

end Plan

/-! ### The accesses to the counter -/

namespace Counter

/-- No more than `n` accesses, each after its lag, have taken `c` to `c'`. -/
def Spends (n : ℕ) (c c' : Counter) : Prop := ∃ k ≤ n, c'.lags = c.lags.drop k

variable {c c' c'' : Counter} {n n' d : ℕ}

theorem Spends.refl (c : Counter) : c.Spends 0 c := ⟨0, le_rfl, rfl⟩

theorem Spends.mono (h : c.Spends n c') (hle : n ≤ n') : c.Spends n' c' := by
  obtain ⟨k, hk, heq⟩ := h
  exact ⟨k, hk.trans hle, heq⟩

theorem Spends.trans (h : c.Spends n c') (h' : c'.Spends n' c'') : c.Spends (n + n') c'' := by
  obtain ⟨k, hk, heq⟩ := h
  obtain ⟨k', hk', heq'⟩ := h'
  exact ⟨k + k', by omega, by rw [heq', heq, List.drop_drop]⟩

theorem spends_lag (c : Counter) : c.Spends 1 c.lag := by
  refine ⟨1, le_rfl, ?_⟩
  unfold lag
  cases hlags : c.lags with
  | nil => rw [hlags]; rfl
  | cons d lags => rfl

theorem Spends.bounded (h : c.Spends n c') (hd : ∀ x ∈ c.lags, x ≤ d) : ∀ x ∈ c'.lags, x ≤ d := by
  obtain ⟨k, -, heq⟩ := h
  intro x hx
  rw [heq] at hx
  exact hd x (List.mem_of_mem_drop hx)

theorem Spends.length_le (h : c.Spends n c') : c.lags.length ≤ n + c'.lags.length := by
  obtain ⟨k, hk, heq⟩ := h
  rw [heq, List.length_drop]
  omega

/-- **The accesses take their time.** -/
theorem Spends.now_le (h : c.Spends n c') (hlater : c.Later c') (hd : ∀ x ∈ c.lags, x ≤ d) :
    c'.now ≤ c.now + n * d := by
  obtain ⟨k, hk, heq⟩ := h
  have htotal := hlater.total
  have hsplit := List.sum_take_add_sum_drop c.lags k
  have htake : (c.lags.take k).sum ≤ (c.lags.take k).length • d :=
    List.sum_le_card_nsmul _ _ fun x hx => hd x (List.mem_of_mem_take hx)
  have hlength : (c.lags.take k).length * d ≤ n * d :=
    Nat.mul_le_mul_right d ((List.length_take_le k c.lags).trans hk)
  rw [smul_eq_mul] at htake
  rw [heq] at htotal
  omega

end Counter

theorem TickerClock.spends_update (c : TickerClock) :
    c.interface.Spends 1 c.update_present_time.interface := by
  rw [update_interface]
  exact c.interface.spends_lag

theorem TickerClock.spends_schedule_interrupt (c : TickerClock) (head : Option ℕ) :
    c.interface.Spends 3 (c.schedule_interrupt head).interface := by
  have hupdate := c.spends_update
  unfold schedule_interrupt
  generalize c.update_present_time = c₁ at hupdate
  cases head with
  | none => exact (hupdate.trans c₁.interface.spends_lag).mono (by omega)
  | some match_time =>
    have hset := (c₁.interface.set_interrupt (c₁.compute_tick match_time)).spends_lag
    have hset' := hupdate.trans (c₁.interface.spends_lag.trans hset)
    dsimp only
    split_ifs
    · exact hupdate.mono (by omega)
    · exact hupdate.mono (by omega)
    · exact hset'
    · exact hset'

namespace TickerData

variable {α : Type} [DecidableEq α] [Fintype α] {t t' : TickerData α}

omit [Fintype α] in
theorem clock_link (t : TickerData α) (obj : α) (prev p : Option α) :
    (t.link obj prev p).clock = t.clock := by
  cases prev <;> rfl

theorem spends_insert {obj id : α} {timestamp : ℕ}
    (h : t.ticker_insert_event_us obj timestamp id = some t') :
    t.clock.interface.Spends 4 t'.clock.interface := by
  unfold ticker_insert_event_us at h
  dsimp only at h
  split at h
  · cases h
  · next prev p hseek =>
    obtain rfl := Option.some.inj h
    show Counter.Spends 4 _ (TickerClock.schedule_interrupt (link _ obj prev p).clock _).interface
    rw [clock_link]
    exact (t.clock.spends_update.trans (TickerClock.spends_schedule_interrupt _ _)).mono le_rfl

theorem spends_remove {obj : α} (h : t.ticker_remove_event obj = some t') :
    t.clock.interface.Spends 3 t'.clock.interface := by
  unfold ticker_remove_event at h
  split_ifs at h
  · obtain rfl := Option.some.inj h
    exact TickerClock.spends_schedule_interrupt _ _
  · split at h
    · cases h
    · obtain rfl := Option.some.inj h
      exact (Counter.Spends.refl _).mono (by omega)
    · obtain rfl := Option.some.inj h
      exact (Counter.Spends.refl _).mono (by omega)

end TickerData

/-- The accesses that a command makes at most. -/
def Command.accesses {α β γ : Type} : Command α β γ → ℕ
  | .attach_us _ _ _ => 8
  | .detach _ => 3
  | .read _ => 1
  | .act _ => 0

namespace Tickers

variable {α β γ : Type} [DecidableEq α] [Fintype α] {C : Command α β γ → Prop} {base : ℕ}
  {code : β → List (Command α β γ)} {s s' : Tickers α β γ} {order : List α}

theorem spends_insert_absolute {i : α} {timestamp : ℕ}
    (h : s.insert_absolute i timestamp = some s') :
    s.data.clock.interface.Spends 4 s'.data.clock.interface := by
  obtain ⟨data, hinsert, rfl⟩ := Option.map_eq_some_iff.1 h
  exact TickerData.spends_insert hinsert

theorem spends_removed {i : α} (h : s.remove i = some s') :
    s.data.clock.interface.Spends 3 s'.data.clock.interface := by
  obtain ⟨data, hremove, rfl⟩ := Option.map_eq_some_iff.1 h
  exact TickerData.spends_remove hremove

theorem spends_setup {i : α} {t : ℕ} (h : s.setup i t = some s') :
    s.data.clock.interface.Spends 8 s'.data.clock.interface := by
  obtain ⟨s₁, hremove, h⟩ := Option.bind_eq_some_iff.1 h
  have hread := s₁.data.clock.spends_update
  exact ((spends_removed hremove).trans hread).trans (spends_insert_absolute h)

theorem spends_command {c : Command α β γ} (h : s.command c = some s') :
    s.data.clock.interface.Spends c.accesses s'.data.clock.interface := by
  cases c with
  | attach_us i func t =>
    rw [command, attach_us] at h
    dsimp only at h
    split_ifs at h
    · obtain ⟨lock, -, h⟩ := Option.bind_eq_some_iff.1 h
      have hset := spends_setup h
      exact hset
    · have hset := spends_setup h
      exact hset
  | detach i =>
    obtain ⟨s₁, hremove, h⟩ := Option.bind_eq_some_iff.1 h
    have hremoved := spends_removed hremove
    dsimp only at h
    split_ifs at h
    · obtain ⟨lock, -, h⟩ := Option.bind_eq_some_iff.1 h
      obtain rfl := Option.some.inj h
      exact hremoved
    · obtain rfl := Option.some.inj h
      exact hremoved
  | read f =>
    obtain rfl := Option.some.inj h
    exact s.data.clock.spends_update
  | act f =>
    obtain rfl := Option.some.inj h
    exact Counter.Spends.refl _

theorem spends_commands {cs : List (Command α β γ)} (h : s.commands cs = some s') :
    s.data.clock.interface.Spends (cs.map Command.accesses).sum s'.data.clock.interface := by
  induction cs generalizing s with
  | nil =>
    obtain rfl : s = s' := Option.some.inj h
    exact Counter.Spends.refl _
  | cons c cs ih =>
    obtain ⟨s₁, hc, hcs⟩ := Option.bind_eq_some_iff.1 h
    rw [List.map_cons, List.sum_cons]
    exact (spends_command hc).trans (ih hcs)

/-- The accesses of a round of the interrupt's loop, with its look at the clock. -/
def roundAccesses (cs : List (Command α β γ)) : ℕ := 5 + (cs.map Command.accesses).sum

theorem spends_handler {i : α} {func : β} (hfunc : (s.ticker i).function = some func)
    (h : s.handler code i = some s') :
    s.data.clock.interface.Spends (4 + ((code func).map Command.accesses).sum)
      s'.data.clock.interface := by
  obtain ⟨s₁, hinsert, h⟩ := Option.bind_eq_some_iff.1 h
  have hticker : s₁.ticker = s.ticker := by
    obtain ⟨data, -, rfl⟩ := Option.map_eq_some_iff.1 hinsert
    rfl
  rw [hticker, hfunc] at h
  have hcommands := spends_commands h
  exact (spends_insert_absolute hinsert).trans hcommands

/-! ### Commands return -/

/-- There is a lock for every ticker, and for the others that hold one. -/
def Capacity (α : Type) [Fintype α] (base : ℕ) : Prop := base + Fintype.card α ≤ 65535

theorem command_total (hcap : Capacity α base) (h : s.data.Lists order)
    (hs : (s.plan order).Sound base) {c : Command α β γ} : ∃ s', s.command c = some s' := by
  have hlock : s.deep_sleep_lock = base + order.length := hs.lock
  cases c with
  | attach_us i func t =>
    obtain ⟨s', now, c, heq, -⟩ := attach_us_spec h i func t
    refine ⟨s', heq.trans (if_neg ?_)⟩
    rintro ⟨hnone, hfull⟩
    have hi : i ∉ order := by
      intro hi
      have hsome : (s.ticker i).function.isSome := (hs.attached i).1 hi
      simp [Option.isNone_iff_eq_none.1 hnone] at hsome
    have hlen := (List.nodup_cons.2 ⟨hi, h.chain.nodup⟩).length_le_card
    rw [List.length_cons] at hlen
    have hcap : base + Fintype.card α ≤ 65535 := hcap
    omega
  | detach i =>
    obtain ⟨s', heq, -⟩ := detach_spec h i
    refine ⟨s', heq.trans (if_neg ?_)⟩
    rintro ⟨hsome, hzero⟩
    have hpos := List.length_pos_of_mem ((hs.attached i).2 hsome)
    have hpos : 0 < order.length := hpos
    omega
  | read f => exact ⟨_, rfl⟩
  | act f => exact ⟨_, rfl⟩

theorem commands_total (hcap : Capacity α base) (h : s.data.Lists order)
    (hs : (s.plan order).Sound base) (cs : List (Command α β γ)) :
    ∃ s', s.commands cs = some s' := by
  induction cs generalizing s order with
  | nil => exact ⟨s, rfl⟩
  | cons c cs ih =>
    obtain ⟨s₁, hc⟩ := command_total hcap h hs (c := c)
    obtain ⟨order₁, hgoes⟩ := command_goes (C := fun _ => True) h trivial hc
    obtain ⟨s', hcs⟩ := ih hgoes.lists (hgoes.plan.sound hs)
    exact ⟨s', Option.bind_eq_some_iff.2 ⟨s₁, hc, hcs⟩⟩

/-! ### The interrupt returns -/

/-- More fuel does not change the outcome. -/
theorem dispatch_mono {fuel fuel' : ℕ} (h : dispatch code fuel s = some s') (hle : fuel ≤ fuel') :
    dispatch code fuel' s = some s' := by
  induction fuel generalizing s fuel' with
  | zero => cases h
  | succ fuel ih =>
    obtain ⟨n, rfl⟩ : ∃ n, fuel' = n + 1 := ⟨fuel' - 1, by omega⟩
    rw [dispatch] at h ⊢
    cases hhead : s.data.head with
    | none => simpa only [hhead] using h
    | some p =>
      simp only [hhead] at h ⊢
      split_ifs at h ⊢ with hdue
      · obtain ⟨s₁, hhandler, hrest⟩ := Option.bind_eq_some_iff.1 h
        exact Option.bind_eq_some_iff.2 ⟨s₁, hhandler, ih hrest (by omega)⟩
      · exact h

/-- The rounds of the loop until it is done, or until there is no fuel left: each makes a call. -/
theorem dispatch_rounds {A : ℕ} (fuel : ℕ) (hcap : Capacity α base)
    (hcode : ∀ func, ∀ c ∈ code func, C c) (hA : ∀ func, roundAccesses (code func) ≤ A)
    (h : s.data.Lists order) (hs : (s.plan order).Sound base) :
    ∃ k s' order', Goes C s order s' order' ∧ s'.calls.length = s.calls.length + k ∧
      s.data.clock.interface.Spends (k * A + 1) s'.data.clock.interface ∧
      (k = fuel ∨ dispatch code fuel s = some s') := by
  induction fuel generalizing s order with
  | zero => exact ⟨0, s, order, .refl h, rfl, (Counter.Spends.refl _).mono (by omega), Or.inl rfl⟩
  | succ fuel ih =>
    rw [dispatch, h.head_eq]
    cases order with
    | nil =>
      exact ⟨0, s, [], .refl h, rfl, (Counter.Spends.refl _).mono (by omega), Or.inr rfl⟩
    | cons p rest =>
      have hupdate := goes_clock (C := C) h (TickerClock.evolves_update s.data.clock)
      have hlook := s.data.clock.spends_update
      have hs₁ := hupdate.plan.sound hs
      dsimp only [List.head?_cons]
      split_ifs with hdue
      swap
      · exact ⟨0, _, _, hupdate, rfl, hlook.mono (by omega), Or.inr rfl⟩
      obtain ⟨func, mid, order₁, heq, hfunc, hlists, -, hplan⟩ :=
        handler_mid (s := s.update_present_time) hupdate.lists hs₁ code
      have hmid : (mid.plan order₁).Sound base := by
        rw [hplan]
        have hcall := hs₁.call (p := p) List.mem_cons_self
        exact ⟨hcall.nodup, hcall.sorted, hcall.attached, hcall.lock⟩
      obtain ⟨s₂, hrun⟩ := commands_total hcap hlists hmid (code func)
      have hhandler := heq.trans hrun
      obtain ⟨order₂, hgoes⟩ := handler_goes hcode (s := s.update_present_time) hupdate.lists hs₁
        hdue hhandler
      have hcalls : s₂.calls.length = s.calls.length + 1 := by
        rw [commands_calls hlists hrun]
        exact congrArg List.length (congrArg Plan.calls hplan)
      have hfunc' : ({ s.update_present_time with
          data := s.update_present_time.data.drop p }.ticker (s.data.event p).id).function =
            some func := by
        rw [h.ids p List.mem_cons_self]
        exact hfunc
      have hspent := spends_handler hfunc' hhandler
      obtain ⟨k, s', order', hgoes', hcalls', hspent', hor⟩ :=
        ih hgoes.lists ((hupdate.trans hgoes).plan.sound hs)
      refine ⟨k + 1, s', order', (hupdate.trans hgoes).trans hgoes', by omega, ?_, ?_⟩
      · refine ((hlook.trans hspent).trans hspent').mono ?_
        have hround := hA func
        unfold roundAccesses at hround
        rw [Nat.succ_mul]
        omega
      · rcases hor with rfl | hrest
        · exact Or.inl rfl
        · exact Or.inr (Option.bind_eq_some_iff.2 ⟨s₂, hhandler, hrest⟩)

/-- A loop of `k` calls, in ticks of the frequency `f`: `n` tickers, none due before `m`, are called
no more than once in `P` each, and a call takes no more than `A * d`. -/
theorem rounds_le {n P A d f m k N X : ℕ} (present : ℕ)
    (hrate : P * k + n * m ≤ n * (present + P))
    (hpresent : present * f ≤ X + k * (A * d) * 1000000)
    (hN : n * (X + P * f - m * f) < (N + 1) * (P * f - n * (A * d) * 1000000)) : k ≤ N := by
  by_contra hk
  have hcalls : (N + 1) * (P * f - n * (A * d) * 1000000) ≤ k * (P * f - n * (A * d) * 1000000) :=
    Nat.mul_le_mul_right _ (by omega)
  have hscaled : k * (P * f) + n * (m * f) ≤
      n * (X + P * f) + k * (n * (A * d) * 1000000) := calc
    k * (P * f) + n * (m * f) = (P * k + n * m) * f := by ring
    _ ≤ n * (present + P) * f := Nat.mul_le_mul_right f hrate
    _ = n * (present * f + P * f) := by ring
    _ ≤ n * (X + k * (A * d) * 1000000 + P * f) := by gcongr
    _ = n * (X + P * f) + k * (n * (A * d) * 1000000) := by ring
  rw [Nat.mul_sub k, Nat.mul_sub n] at *
  omega

/-- **The interrupt returns**, after no more than `N` calls and the accesses of these: `N` depends on
how long the tickers have been due, and not on how long time goes on to pass. -/
theorem interrupt_total {P A d m N start : ℕ} (hcap : Capacity α base)
    (hcode : ∀ func, ∀ c ∈ code func, C c) (hC : ∀ i func t, C (.attach_us i func t) → P ≤ t)
    (hA : ∀ func, roundAccesses (code func) ≤ A) (h : s.data.Lists order)
    (hs : (s.plan order).Sound base) (hP : (s.plan order).PeriodsGe P)
    (hc : s.data.clock.Calibrated) (hcounts : s.data.clock.Counts start)
    (hlags : ∀ x ∈ s.data.clock.interface.lags, x ≤ d)
    (horder : ∀ i ∈ order, m ≤ s.data.timestamp i) (hm : m ≤ s.data.clock.present_time + P)
    (hN : Fintype.card α * ((s.data.clock.interface.now - start + d) * 1000000 +
        P * s.data.clock.frequency - m * s.data.clock.frequency) <
      (N + 1) * (P * s.data.clock.frequency - Fintype.card α * (A * d) * 1000000)) :
    ∃ s', s'.calls.length ≤ s.calls.length + N ∧
      s.data.clock.interface.Spends (N * A + 4) s'.data.clock.interface ∧
      ∀ fuel, N < fuel → s.ticker_irq_handler code fuel = some s' := by
  have hclear : s.clear_interrupt.data.clock.Counts start := hcounts.interface rfl le_rfl
  obtain ⟨k, s₁, order₁, hgoes, hcalls, hspent, hor⟩ := dispatch_rounds (C := C) (A := A) (N + 1)
    hcap hcode hA (s := s.clear_interrupt) (h.clock _) hs
  obtain ⟨seen₀, counted₀, hreads₀, hle₀, -⟩ := hcounts
  obtain ⟨seen, counted, hreads, hle, -⟩ := hgoes.clock.counts (hc.interface rfl) hclear
  have hk : k ≤ N := by
    refine rounds_le s₁.data.clock.present_time ?_ ?_ hN
    · have hrate := hgoes.plan.calls_le hs hP hC horder hm
      have hcalls' : (s₁.plan order₁).calls.length =
          (s.clear_interrupt.plan order).calls.length + k := hcalls
      rw [hcalls', mul_add] at hrate
      have hpresent : (s₁.plan order₁).present_time = s₁.data.clock.present_time := rfl
      rw [hpresent] at hrate
      omega
    · -- the clock has counted no more than has gone by
      have hnow := hspent.now_le hgoes.clock.later hlags
      have hfrequency : s₁.data.clock.frequency = s.data.clock.frequency := hgoes.clock.frequency_eq
      have hnow₀ : s.clear_interrupt.data.clock.interface.now = s.data.clock.interface.now := rfl
      have htotal := hreads.total
      have hseen := hreads.le_now
      have hseen₀ := hreads₀.le_now
      rw [hfrequency] at htotal
      rw [add_mul, mul_assoc, one_mul, hnow₀] at hnow
      omega
  have hdispatch := hor.resolve_left (by omega)
  refine ⟨{ s₁ with data := s₁.data.schedule_interrupt }, ?_, ?_, fun fuel hfuel => ?_⟩
  · show s₁.calls.length ≤ _
    have hcalls' : s₁.calls.length = s.calls.length + k := hcalls
    omega
  · have hschedule := TickerClock.spends_schedule_interrupt s₁.data.clock
      (s₁.data.head.map s₁.data.timestamp)
    have haccesses : k * A ≤ N * A := Nat.mul_le_mul_right A hk
    exact (hspent.trans hschedule).mono (by omega)
  · exact Option.map_eq_some_iff.2 ⟨s₁, dispatch_mono hdispatch hfuel, rfl⟩

end Tickers

end NucleoMotor
