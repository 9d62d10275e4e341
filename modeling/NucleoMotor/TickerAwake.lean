import NucleoMotor.TickerClock

/-!
# The ticker's interrupt comes in time

The driver keeps its clock right only if it reads the counter at least once a round.  Between two
events either the interrupt has been raised, or the compare register holds a tick that is at most
`max_delta` after the last reading and not after the first event of the list (`Awake`).

* `Awake.elapse`: it stays so while time passes, the counter stepping through its wrap or not.
* `Awake.update`: a reading on time leaves it so.
* `Current.schedule`: `schedule_interrupt` restores it, also when the counter comes to the match
  before the compare register is set.
-/

namespace NucleoMotor

/-! ### When the counter comes to the compare register -/

namespace Counter

theorem untilMatch_eq {c : Counter} {T : ℕ} (hbits : c.bits ≤ 32)
    (hT : c.compare = Wrap.shown 32 c.bits T) (hlt : c.now < T) (hle : T ≤ c.now + 2 ^ c.bits) :
    c.untilMatch = T - c.now := by
  have hpos : 0 < 2 ^ c.bits := by positivity
  have hmod := Nat.mod_lt c.now hpos
  obtain ⟨d, rfl⟩ : ∃ d, T = c.now + (d + 1) := ⟨T - c.now - 1, by omega⟩
  rw [untilMatch, hT, Wrap.toNat_shown hbits, Nat.add_mod, Nat.mod_mod, ← Nat.add_mod]
  have hsum : c.now + (d + 1) + (2 ^ c.bits - 1 - c.now % 2 ^ c.bits) =
      d + 2 ^ c.bits + 2 ^ c.bits * (c.now / 2 ^ c.bits) := by
    have hdiv := Nat.mod_add_div c.now (2 ^ c.bits)
    omega
  rw [hsum, Nat.add_mul_mod_self_left, Nat.add_mod_right, Nat.mod_eq_of_lt (by omega)]
  omega

/-- While the interrupt is not raised, it is raised by the time `T`. -/
theorem elapse_cases {c : Counter} {T d : ℕ} (hbits : c.bits ≤ 32) (hnone : c.pending = none)
    (hT : c.compare = Wrap.shown 32 c.bits T) (hlt : c.now < T) (hle : T ≤ c.now + 2 ^ c.bits) :
    c.now + d < T ∧ (c.elapse d).pending = none ∨
      T ≤ c.now + d ∧ (c.elapse d).pending = some T := by
  have huntil := untilMatch_eq hbits hT hlt hle
  unfold elapse
  dsimp only
  by_cases hd : c.now + d < T
  · refine Or.inl ⟨hd, ?_⟩
    rw [if_neg (by omega), hnone]
  · refine Or.inr ⟨by omega, ?_⟩
    rw [if_pos ⟨by simp [hnone], by omega⟩, huntil]
    congr 1
    omega

/-- The time before the next access is time that goes by. -/
theorem lag_eq (c : Counter) : ∃ d lags, c.lag = ({ c with lags } : Counter).elapse d := by
  unfold lag
  cases hlags : c.lags with
  | nil =>
    refine ⟨0, [], ?_⟩
    have hpos : ¬ ({ c with lags := [] } : Counter).untilMatch ≤ 0 := by simp [untilMatch]
    unfold elapse
    rw [if_neg fun h => hpos h.2]
    cases c
    simp_all
  | cons d lags => exact ⟨d, lags, rfl⟩

@[simp] theorem lag_compare (c : Counter) : c.lag.compare = c.compare := by
  unfold lag
  cases c.lags <;> rfl

end Counter

namespace TickerClock

variable {c c' : TickerClock} {start D seen : ℕ} {head : Option ℕ}

/-- `max_delta`: 7/16 of a round. -/
def maxDelta (c : TickerClock) : ℕ := 7 * 2 ^ (c.interface.bits - 4)

theorem maxDelta_eq (h : c.Calibrated) : 16 * c.maxDelta = 7 * 2 ^ c.interface.bits := by
  have hpow : 2 ^ c.interface.bits = 16 * 2 ^ (c.interface.bits - 4) := by
    rw [show (16 : ℕ) = 2 ^ 4 by norm_num, ← pow_add]
    congr 1
    have := h.bits_ge
    omega
  unfold maxDelta
  omega

theorem maxDelta_interface {i : Counter} (hi : c.interface.Later i) :
    ({ c with interface := i } : TickerClock).maxDelta = c.maxDelta := by
  rw [maxDelta, hi.bits, maxDelta]

/-- At a tick `t` of a counter of frequency `f`, an event at `ts` has not been due for more than
`late` ticks and a microsecond. -/
def Within (f start late t ts : ℕ) : Prop :=
  t * 1000000 < start * 1000000 + (ts + 1) * f + late * 1000000

theorem Within.mono {f late late' t t' ts ts' : ℕ} (h : Within f start late t ts) (hts : ts ≤ ts')
    (ht : t' + late ≤ t + late') : Within f start late' t' ts' := by
  have hmul : (ts + 1) * f ≤ (ts' + 1) * f := Nat.mul_le_mul_right _ (by omega)
  unfold Within at h ⊢
  linarith

/-- The present time is right to a microsecond. -/
theorem Reads.within (h : c.Reads seen (seen - start)) (hstart : start ≤ seen) :
    Within c.frequency start 0 seen c.present_time := by
  have htotal := h.total
  have hrem := h.remainder
  unfold Within
  rw [add_mul, one_mul]
  have hsub : (seen - start) * 1000000 = seen * 1000000 - start * 1000000 := Nat.sub_mul ..
  omega

/-- **Either the interrupt has been raised, or it will be in time.** -/
structure Awake (c : TickerClock) (start D : ℕ) (head : Option ℕ) (seen : ℕ) : Prop where
  start_le : start ≤ seen
  reads : c.Reads seen (seen - start)
  raised : ∀ since, c.interface.pending = some since →
    since ≤ c.interface.now ∧ since ≤ seen + c.maxDelta ∧
      ∀ ts ∈ head, Within c.frequency start D since ts
  armed : c.interface.pending = none → ∃ T, c.interface.now < T ∧ T ≤ seen + c.maxDelta ∧
    c.interface.compare = Wrap.shown 32 c.interface.bits T ∧
      ∀ ts ∈ head, Within c.frequency start 0 T ts

/-- Time goes by. -/
theorem Awake.elapse (h : c.Awake start D head seen) (hc : c.Calibrated) (d : ℕ) :
    ({ c with interface := c.interface.elapse d } : TickerClock).Awake start D head seen := by
  have hmax := maxDelta_eq hc
  have hle := h.reads.le_now
  refine ⟨h.start_le, h.reads.interface rfl (Nat.le_add_right _ _), ?_, ?_⟩
  · intro since hsince
    cases hpending : c.interface.pending with
    | some since' =>
      have hsame : (c.interface.elapse d).pending = some since' := by
        simp [Counter.elapse, hpending]
      obtain rfl : since' = since := Option.some.inj (hsame.symm.trans hsince)
      obtain ⟨h1, h2, h3⟩ := h.raised since' hpending
      exact ⟨h1.trans (Nat.le_add_right _ _), h2, h3⟩
    | none =>
      obtain ⟨T, hT1, hT2, hT3, hT4⟩ := h.armed hpending
      rcases Counter.elapse_cases (d := d) hc.bits_le hpending hT3 hT1 (by omega) with
        ⟨-, hnone⟩ | ⟨hpast, hsome⟩
      · cases hnone.symm.trans hsince
      · obtain rfl : T = since := Option.some.inj (hsome.symm.trans hsince)
        exact ⟨hpast, hT2, fun ts hts => (hT4 ts hts).mono le_rfl (by omega)⟩
  · intro hnone
    have hpending : c.interface.pending = none := by
      rcases c.interface.elapse_pending d with heq | ⟨hnone', -⟩
      · exact heq ▸ hnone
      · exact hnone'
    obtain ⟨T, hT1, hT2, hT3, hT4⟩ := h.armed hpending
    rcases Counter.elapse_cases (d := d) hc.bits_le hpending hT3 hT1 (by omega) with
      ⟨hlt, -⟩ | ⟨-, hsome⟩
    · exact ⟨T, hlt, hT2, hT3, hT4⟩
    · cases hnone.symm.trans hsome

/-- The time that the code is going to take is no concern of the counter. -/
theorem Awake.setLags (h : c.Awake start D head seen) (lags : List ℕ) :
    ({ c with interface := { c.interface with lags } } : TickerClock).Awake start D head seen :=
  ⟨h.start_le, h.reads.interface rfl le_rfl, h.raised, h.armed⟩

theorem Awake.lag (h : c.Awake start D head seen) (hc : c.Calibrated) :
    ({ c with interface := c.interface.lag } : TickerClock).Awake start D head seen := by
  obtain ⟨d, lags, hlag⟩ := c.interface.lag_eq
  rw [hlag]
  exact (h.setLags lags).elapse (hc.interface rfl) d

/-- A reading, on time. -/
theorem Awake.update (h : c.Awake start D head seen) (hc : c.Calibrated)
    (hcur : c.Current start seen) :
    c.update_present_time.Awake start D head c.interface.lag.now := by
  have hcur' := hcur.update hc
  have hlag := h.lag hc
  have hseen : seen ≤ c.interface.lag.now := hlag.reads.le_now
  have hmax : c.update_present_time.maxDelta = c.maxDelta := by
    rw [maxDelta, update_interface, c.interface.later_lag.bits, maxDelta]
  have hmax' : ({ c with interface := c.interface.lag } : TickerClock).maxDelta = c.maxDelta := by
    rw [maxDelta, c.interface.later_lag.bits, maxDelta]
  refine ⟨hcur'.start_le, hcur'.reads, ?_, ?_⟩
  · intro since hsince
    rw [update_interface] at hsince ⊢
    rw [hmax, c.update_frame.1]
    obtain ⟨h1, h2, h3⟩ := hlag.raised since hsince
    exact ⟨h1, by omega, h3⟩
  · intro hnone
    rw [update_interface] at hnone ⊢
    rw [hmax, c.update_frame.1]
    obtain ⟨T, h1, h2, h3, h4⟩ := hlag.armed hnone
    exact ⟨T, h1, by omega, h3, h4⟩

/-- No event of the list `head` has been due for long, whenever the interrupt has been raised or
may be. -/
structure Ready (c : TickerClock) (start D : ℕ) (head : Option ℕ) : Prop where
  raised : ∀ since, c.interface.pending = some since →
    since ≤ c.interface.now ∧ ∀ ts ∈ head, Within c.frequency start D since ts
  idle : c.interface.pending = none → ∀ ts ∈ head,
    Within c.frequency start D (c.interface.now + c.interface.lags.sum) ts

theorem Ready.later (h : c.Ready start D head) {i : Counter} (hi : c.interface.Later i)
    {f : ℕ} (hf : f = c.frequency) :
    (∀ since, i.pending = some since → since ≤ i.now ∧ ∀ ts ∈ head, Within f start D since ts) ∧
      (i.pending = none → ∀ ts ∈ head, Within f start D (i.now + i.lags.sum) ts) := by
  subst hf
  have hnow := hi.now_le
  have htotal := hi.total
  constructor
  · intro since hsince
    rcases hi.pending with heq | ⟨hnone, hbetween⟩
    · obtain ⟨h1, h2⟩ := h.raised since (heq.symm.trans hsince)
      exact ⟨by omega, h2⟩
    · obtain ⟨h1, h2⟩ := hbetween since hsince
      exact ⟨h2, fun ts hts => (h.idle hnone ts hts).mono le_rfl (by omega)⟩
  · intro hnone ts hts
    rw [htotal]
    refine h.idle ?_ ts hts
    rcases hi.pending with heq | ⟨hnone', -⟩
    · exact heq.symm.trans hnone
    · exact hnone'

theorem Evolves.ready (h : c.Evolves c') (hready : c.Ready start D head) :
    c'.Ready start D head := by
  refine h.invariant (P := fun c => c.Ready start D head) hready fun c₁ c₂ h₁ hact => ?_
  cases hact with
  | update =>
    obtain ⟨h2, h3⟩ := h₁.later c₁.interface.later_lag c₁.update_frame.1
    exact ⟨by rwa [update_interface], by rwa [update_interface]⟩
  | interface i hi =>
    obtain ⟨h2, h3⟩ := h₁.later hi rfl
    exact ⟨h2, h3⟩

/-- Soon after a reading, raised or armed. -/
theorem Ready.awake (h : c.Ready start D head) (hstart : start ≤ seen)
    (hreads : c.Reads seen (seen - start)) (hnow : c.interface.now ≤ seen + c.maxDelta)
    (harmed : c.interface.pending = none → ∃ T, c.interface.now < T ∧ T ≤ seen + c.maxDelta ∧
      c.interface.compare = Wrap.shown 32 c.interface.bits T ∧
        ∀ ts ∈ head, Within c.frequency start 0 T ts) : c.Awake start D head seen :=
  ⟨hstart, hreads, fun since hsince =>
    ⟨(h.raised since hsince).1, (h.raised since hsince).1.trans hnow, (h.raised since hsince).2⟩,
    harmed⟩

theorem fire_pending (c : TickerClock) : c.fire.interface.pending ≠ none := by
  simp [fire, Counter.fire_interrupt]

/-- `_ticker_match_interval_passed`, from a reading at tick `n`, one less than a round later and a
match at most a round ahead. -/
theorem match_interval_passed_iff {b n d m : ℕ} (hb : b ≤ 32) (hd : d < 2 ^ b) (hm0 : 0 < m)
    (hm : m ≤ 2 ^ b) : match_interval_passed (Wrap.shown 32 b n) (Wrap.shown 32 b (n + d))
      (Wrap.shown 32 b (n + m)) = true ↔ m ≤ d := by
  rw [← Wrap.passed_iff (s := n) hd hm0 hm]
  unfold match_interval_passed
  simp only [gt_iff_lt, ge_iff_le, BitVec.lt_def, BitVec.le_def, Wrap.toNat_shown hb]
  split_ifs <;> simp

/-- The tick to which `compute_tick` sets the compare register is not after the event. -/
theorem Reads.within_compute (h : c.Reads seen (seen - start)) (hstart : start ≤ seen) {ts δ : ℕ}
    (hts : c.present_time < ts) (hδ : δ ≤ (ts - c.present_time) * c.frequency / 1000000) :
    Within c.frequency start 0 (seen + δ) ts := by
  have hnow := h.within hstart
  have hle : δ * 1000000 ≤ (ts - c.present_time) * c.frequency :=
    (Nat.mul_le_mul_right _ hδ).trans (Nat.div_mul_le_self _ _)
  obtain ⟨n, rfl⟩ : ∃ n, ts = c.present_time + n := ⟨ts - c.present_time, by omega⟩
  rw [Nat.add_sub_cancel_left] at hle
  unfold Within at hnow ⊢
  linarith

/-- **After `schedule_interrupt` the interrupt has been raised or will be in time.** -/
theorem Current.schedule (h : c.Current start seen) (hc : c.Calibrated)
    (hready : c.Ready start D head) (hlags : c.interface.lags.sum < c.maxDelta) :
    ∃ seen', seen ≤ seen' ∧ (c.schedule_interrupt head).Awake start D head seen' := by
  have hready' := (evolves_schedule_interrupt c head).ready hready
  have hlag := c.interface.later_lag
  have hseen : seen ≤ c.interface.lag.now := h.reads.le_now.trans hlag.now_le
  refine ⟨c.interface.lag.now, hseen, ?_⟩
  have h₁ := h.update hc
  have hc₁ := hc.update
  have hmax₁ : c.update_present_time.maxDelta = c.maxDelta := by
    rw [maxDelta, update_interface, hlag.bits, maxDelta]
  have hsum : c.update_present_time.interface.lags.sum < c.update_present_time.maxDelta := by
    have hle := hlag.sum_le
    rw [hmax₁, update_interface]
    omega
  have hnow : c.update_present_time.interface.now = c.interface.lag.now := by rw [update_interface]
  unfold schedule_interrupt at hready' ⊢
  generalize c.update_present_time = c₁ at *
  generalize c.interface.lag.now = seen₁ at *
  have hmax := maxDelta_eq hc₁
  have hstart := h₁.start_le
  cases head with
  | none =>
    simp only at hready' ⊢
    have hm : (c₁.tick_last_read + c₁.max_delta) &&& c₁.bitmask =
        Wrap.shown 32 c₁.interface.bits (seen₁ + c₁.maxDelta) := by
      have hdelta : c₁.max_delta = BitVec.ofNat 32 c₁.maxDelta := by
        rw [maxDelta, ← hc₁.max_delta, BitVec.ofNat_toNat, BitVec.setWidth_eq]
      rw [h₁.reads.last, hdelta, hc₁.bitmask, Wrap.advance hc₁.bits_le]
    generalize (c₁.tick_last_read + c₁.max_delta) &&& c₁.bitmask = m at *
    have hset := c₁.interface.later_set_interrupt m
    have hset_now := hset.now_le
    have hset_total := hset.total
    have hset_max := c₁.maxDelta_interface hset
    have hin : (c₁.interface.set_interrupt m).now < seen₁ + c₁.maxDelta := by omega
    refine hready'.awake hstart (h₁.reads.interface hset.bits hset_now) (hset_max.symm ▸ hin.le)
      fun _ => ⟨seen₁ + c₁.maxDelta, hin, hset_max.symm ▸ le_rfl, ?_, by simp⟩
    show m = Wrap.shown 32 (c₁.interface.set_interrupt m).bits _
    rw [hset.bits]
    exact hm
  | some match_time =>
    simp only at hready' ⊢
    have hraised : c₁.interface.now ≤ seen₁ + c₁.maxDelta := by omega
    split_ifs at hready' ⊢ with hdue htick hpassed
    · exact hready'.awake hstart (h₁.reads.interface rfl le_rfl)
        hraised fun hnone => absurd hnone (fire_pending _)
    · exact hready'.awake hstart (h₁.reads.interface rfl le_rfl)
        hraised fun hnone => absurd hnone (fire_pending _)
    all_goals
      have hm := hc₁.compute_tick h₁.reads match_time
      have hcompare := (c₁.interface.set_interrupt (c₁.compute_tick match_time)).lag_compare
      have hread := (c₁.interface.later_set_interrupt (c₁.compute_tick match_time)).trans
        (Counter.later_lag _)
      have hread_now := hread.now_le
      have hread_total := hread.total
      have hread_max := c₁.maxDelta_interface hread
      simp only [Counter.read] at hready' hpassed ⊢
      generalize (c₁.interface.set_interrupt (c₁.compute_tick match_time)).lag = i at *
      have hin : i.now < seen₁ + c₁.maxDelta := by omega
    · refine hready'.awake hstart (h₁.reads.interface hread.bits hread_now) ?_
        fun hnone => absurd hnone (fire_pending _)
      exact hin.le.trans_eq (congrArg _ hread_max.symm)
    · -- the compare register holds a tick that is still to come
      obtain ⟨δ, hδ⟩ : ∃ δ, min (7 * 2 ^ (c₁.interface.bits - 4))
        ((match_time - c₁.present_time) * c₁.frequency / 1000000) = δ := ⟨_, rfl⟩
      have hδ_max : δ ≤ c₁.maxDelta := hδ ▸ min_le_left _ _
      have hδ_due : δ ≤ (match_time - c₁.present_time) * c₁.frequency / 1000000 :=
        hδ ▸ min_le_right _ _
      rw [hδ] at hm
      have hδ_pos : 0 < δ := by
        refine Nat.pos_of_ne_zero fun hzero => htick ?_
        rw [hm, hzero, h₁.reads.last, add_zero]
      obtain ⟨d, hd⟩ : ∃ d, i.now = seen₁ + d := ⟨i.now - seen₁, by omega⟩
      have hshows : i.shows = Wrap.shown 32 c₁.interface.bits (seen₁ + d) := by
        rw [← hd, ← hread.bits]
        rfl
      rw [h₁.reads.last, hshows, hm, match_interval_passed_iff hc₁.bits_le (by omega) hδ_pos
        (by omega)] at hpassed
      refine hready'.awake hstart (h₁.reads.interface hread.bits hread_now)
        (hin.le.trans_eq (congrArg _ hread_max.symm)) fun _ => ⟨seen₁ + δ, ?_, ?_, ?_, ?_⟩
      · show i.now < _
        omega
      · rw [hread_max]
        omega
      · show i.compare = Wrap.shown 32 i.bits _
        rw [hcompare, hread.bits]
        exact hm
      · rintro ts hts
        obtain rfl : match_time = ts := by simpa using hts
        exact h₁.reads.within_compute hstart (by omega) hδ_due

/-! ### Code that starts on time -/

/-- The code starts with time that is going to pass and is read before the counter has gone
round. -/
theorem Awake.current {L : ℕ} (h : c.Awake start D head seen) (hc : c.Calibrated)
    (hlags : c.interface.lags.sum ≤ D) (hD : D < c.maxDelta)
    (hL : L + c.maxDelta ≤ 2 ^ c.interface.bits)
    (hserved : ∀ since ∈ c.interface.pending, c.interface.now + c.interface.lags.sum < since + L) :
    c.Current start seen := by
  refine ⟨h.start_le, h.reads, ?_⟩
  have hmax := maxDelta_eq hc
  cases hpending : c.interface.pending with
  | none =>
    obtain ⟨T, hT1, hT2, -⟩ := h.armed hpending
    omega
  | some since =>
    have hsince := (h.raised since hpending).2.1
    have hlt := hserved since hpending
    omega

/-- What the code lists is due no earlier than its first reading, or than what was listed. -/
theorem Awake.ready {head' : Option ℕ} (h : c.Awake start D head seen) (hc : c.Calibrated)
    (hcur : c.Current start seen) (hlags : c.interface.lags.sum ≤ D)
    (hhead : ∀ ts ∈ head', c.update_present_time.present_time ≤ ts ∨ ∃ ts₀ ∈ head, ts₀ ≤ ts) :
    c.Ready start D head' := by
  have hupdate := hcur.update hc
  have hfirst := hupdate.reads.within hupdate.start_le
  rw [c.update_frame.1] at hfirst
  have hnow := c.interface.later_lag.now_le
  constructor
  · intro since hsince
    obtain ⟨h1, -, h3⟩ := h.raised since hsince
    refine ⟨h1, fun ts hts => ?_⟩
    rcases hhead ts hts with hle | ⟨ts₀, hts₀, hle⟩
    · exact hfirst.mono hle (by omega)
    · exact (h3 ts₀ hts₀).mono hle le_rfl
  · intro hnone ts hts
    rcases hhead ts hts with hle | ⟨ts₀, hts₀, hle⟩
    · exact hfirst.mono hle (by omega)
    · obtain ⟨T, hT1, -, -, hT4⟩ := h.armed hnone
      exact (hT4 ts₀ hts₀).mono hle (by omega)

end TickerClock

end NucleoMotor
