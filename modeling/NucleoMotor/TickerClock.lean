import NucleoMotor.UsTicker

/-!
# How the ticker keeps the time

* `Calibrated`: what `initializeQueue` derives from the counter's `bits` and frequency.
* `Evolves`: whatever the driver does to its clock is a sequence of updates and accesses to the
  counter, so the time never goes back (`Evolves.present_time_le`).
* `Reads`: the microseconds and the remainder are those of the ticks counted (`Reads.update`), so
  the time does not drift with the number of readings.
* `count_eq_general`, `compute_tick_eq_general`: the short cuts for 1 MHz and 32768 Hz agree with
  the general case.
* `Calibrated.compute_tick`: the tick of an event is at most `max_delta` ahead and never after the
  event.
-/

namespace NucleoMotor

open Relation

/-! ### The counter -/

namespace Counter

/-- Time has passed out of the lags that were to come, and the interrupt has been raised at most
once, not earlier than now. -/
structure Later (c c' : Counter) : Prop where
  frequency : c'.frequency = c.frequency
  bits : c'.bits = c.bits
  suffix : c'.lags <:+ c.lags
  total : c'.now + c'.lags.sum = c.now + c.lags.sum
  pending : c'.pending = c.pending ∨
    c.pending = none ∧ ∀ since ∈ c'.pending, c.now ≤ since ∧ since ≤ c'.now

theorem Later.sum_le {c c' : Counter} (h : c.Later c') : c'.lags.sum ≤ c.lags.sum := by
  obtain ⟨gone, hlags⟩ := h.suffix
  rw [← hlags, List.sum_append]
  omega

theorem Later.now_le {c c' : Counter} (h : c.Later c') : c.now ≤ c'.now := by
  have hsum := h.sum_le
  have htotal := h.total
  omega

theorem Later.refl (c : Counter) : c.Later c := ⟨rfl, rfl, List.suffix_rfl, rfl, Or.inl rfl⟩

theorem Later.trans {c c' c'' : Counter} (h : c.Later c') (h' : c'.Later c'') : c.Later c'' where
  frequency := h'.frequency.trans h.frequency
  bits := h'.bits.trans h.bits
  suffix := h'.suffix.trans h.suffix
  total := h'.total.trans h.total
  pending := by
    have h1 := h.now_le
    have h2 := h'.now_le
    rcases h.pending with heq | ⟨hnone, hbetween⟩
    · rcases h'.pending with heq' | ⟨hnone', hbetween'⟩
      · exact Or.inl (heq'.trans heq)
      · exact Or.inr ⟨heq ▸ hnone', fun since hs => ⟨h1.trans (hbetween' since hs).1,
          (hbetween' since hs).2⟩⟩
    · refine Or.inr ⟨hnone, fun since hs => ?_⟩
      rcases h'.pending with heq' | ⟨hnone', hbetween'⟩
      · rw [heq'] at hs
        exact ⟨(hbetween since hs).1, (hbetween since hs).2.trans h2⟩
      · exact ⟨h1.trans (hbetween' since hs).1, (hbetween' since hs).2⟩

theorem elapse_pending (c : Counter) (d : ℕ) :
    (c.elapse d).pending = c.pending ∨
      c.pending = none ∧ ∀ since ∈ (c.elapse d).pending, c.now ≤ since ∧ since ≤ c.now + d := by
  unfold elapse
  dsimp only
  split_ifs with h
  · refine Or.inr ⟨by simpa using h.1, fun since hs => ?_⟩
    obtain rfl : c.now + c.untilMatch = since := by simpa using hs
    exact ⟨Nat.le_add_right _ _, by have := h.2; omega⟩
  · exact Or.inl rfl

theorem later_lag (c : Counter) : c.Later c.lag := by
  unfold lag
  cases hlags : c.lags with
  | nil => exact Later.refl c
  | cons d lags =>
    refine ⟨rfl, rfl, ?_, ?_, elapse_pending { c with lags := lags } d⟩
    · rw [hlags]
      exact List.suffix_cons d lags
    · rw [hlags, List.sum_cons]
      show c.now + d + lags.sum = _
      omega

theorem later_set_interrupt (c : Counter) (m : BitVec 32) : c.Later (c.set_interrupt m) :=
  let h := c.later_lag
  ⟨h.frequency, h.bits, h.suffix, h.total, h.pending⟩

theorem later_fire_interrupt (c : Counter) : c.Later c.fire_interrupt := by
  refine ⟨rfl, rfl, List.suffix_rfl, rfl, ?_⟩
  unfold fire_interrupt
  cases hpending : c.pending with
  | none =>
    refine Or.inr ⟨rfl, fun since hs => ?_⟩
    obtain rfl : c.now = since := by simpa using hs
    exact ⟨le_rfl, le_rfl⟩
  | some since => exact Or.inl rfl

end Counter

namespace TickerClock

/-! ### What the driver does to its clock -/

inductive Acts : TickerClock → TickerClock → Prop
  | update (c : TickerClock) : Acts c c.update_present_time
  | interface (c : TickerClock) (i : Counter) : c.interface.Later i → Acts c { c with interface := i }

def Evolves : TickerClock → TickerClock → Prop := ReflTransGen Acts

theorem Evolves.refl (c : TickerClock) : c.Evolves c := ReflTransGen.refl

theorem Evolves.trans {c c' c'' : TickerClock} (h : c.Evolves c') (h' : c'.Evolves c'') :
    c.Evolves c'' := ReflTransGen.trans h h'

theorem evolves_update (c : TickerClock) : c.Evolves c.update_present_time :=
  ReflTransGen.single (.update c)

theorem evolves_interface {c : TickerClock} {i : Counter} (h : c.interface.Later i) :
    c.Evolves { c with interface := i } := ReflTransGen.single (.interface c i h)

theorem evolves_fire (c : TickerClock) : c.Evolves c.fire :=
  evolves_interface c.interface.later_fire_interrupt

/-- `schedule_interrupt` starts with an update. -/
theorem update_evolves_schedule_interrupt (c : TickerClock) (head : Option ℕ) :
    c.update_present_time.Evolves (c.schedule_interrupt head) := by
  unfold schedule_interrupt
  generalize c.update_present_time = c
  cases head with
  | none => exact evolves_interface (c.interface.later_set_interrupt _)
  | some match_time =>
    have hset := (c.interface.later_set_interrupt (c.compute_tick match_time)).trans
      (Counter.later_lag _)
    simp only
    split_ifs
    · exact evolves_fire c
    · exact evolves_fire c
    · exact (evolves_interface hset).trans (evolves_fire _)
    · exact evolves_interface hset

theorem evolves_schedule_interrupt (c : TickerClock) (head : Option ℕ) :
    c.Evolves (c.schedule_interrupt head) :=
  (evolves_update c).trans (update_evolves_schedule_interrupt c head)

/-- What every action preserves holds however the clock evolves. -/
theorem Evolves.invariant {P : TickerClock → Prop} {c c' : TickerClock} (h : c.Evolves c')
    (h0 : P c) (hacts : ∀ c c', P c → Acts c c' → P c') : P c' := by
  induction h with
  | refl => exact h0
  | tail _ hact ih => exact hacts _ _ ih hact

/-! ### Counting -/

/-- The general case of the conversion. -/
def countGeneral (c : TickerClock) (elapsed_ticks : ℕ) : TickerClock :=
  let us_x_ticks := elapsed_ticks * 1000000
  let elapsed_us := us_x_ticks / c.frequency
  c.carry elapsed_us (us_x_ticks - elapsed_us * c.frequency)

/-- **The short cuts convert as the general case does.** -/
theorem count_eq_general {c : TickerClock} (h : c.tick_remainder < c.frequency) (n : ℕ) :
    c.count n = c.countGeneral n := by
  unfold count countGeneral
  split_ifs with h1 h2
  · -- a microsecond a tick leaves no remainder
    have hq : n * 1000000 / c.frequency = n := by rw [← h1]; omega
    have hr : n * 1000000 - n * c.frequency = 0 := by rw [← h1, Nat.sub_self]
    simp only [hq, hr, carry, add_zero]
    rw [if_neg (by omega)]
  · simp only [Nat.shiftRight_eq_div_pow, Nat.shiftLeft_eq]
    rw [← h2]
  · rfl

/-- The conversion keeps count: the microseconds and the remainder are those of the ticks. -/
theorem count_spec {c : TickerClock} (h : c.tick_remainder < c.frequency) (n : ℕ) :
    (c.count n).present_time * c.frequency + (c.count n).tick_remainder =
      c.present_time * c.frequency + c.tick_remainder + n * 1000000 ∧
    (c.count n).tick_remainder < c.frequency := by
  rw [count_eq_general h, countGeneral, carry]
  have hdiv := Nat.div_add_mod (n * 1000000) c.frequency
  have hmod := Nat.mod_lt (n * 1000000) (Nat.zero_lt_of_lt h)
  have hsub : n * 1000000 - n * 1000000 / c.frequency * c.frequency =
      n * 1000000 % c.frequency := by
    rw [Nat.mod_eq_sub, mul_comm (_ / _)]
  rw [mul_comm] at hdiv
  simp only [hsub]
  split_ifs with hle
  · simp only [add_mul, one_mul]
    omega
  · simp only [add_mul]
    omega

theorem count_frame (c : TickerClock) (n : ℕ) :
    (c.count n).interface = c.interface ∧ (c.count n).frequency = c.frequency ∧
    (c.count n).bitmask = c.bitmask ∧ (c.count n).max_delta = c.max_delta ∧
    (c.count n).max_delta_us = c.max_delta_us ∧ (c.count n).tick_last_read = c.tick_last_read := by
  unfold count carry
  dsimp only
  split_ifs <;> exact ⟨rfl, rfl, rfl, rfl, rfl, rfl⟩

/-- The ticks between the last reading and the next. -/
def elapsed_ticks (c : TickerClock) : ℕ :=
  ((c.interface.lag.shows - c.tick_last_read) &&& c.bitmask).toNat

theorem update_of_eq {c : TickerClock} (h : c.interface.lag.shows = c.tick_last_read) :
    c.update_present_time = { c with interface := c.interface.lag } := if_pos h

theorem update_of_ne {c : TickerClock} (h : c.interface.lag.shows ≠ c.tick_last_read) :
    c.update_present_time =
      ({ c with interface := c.interface.lag, tick_last_read := c.interface.lag.shows } :
        TickerClock).count c.elapsed_ticks := if_neg h

@[simp] theorem update_interface (c : TickerClock) :
    c.update_present_time.interface = c.interface.lag := by
  by_cases h : c.interface.lag.shows = c.tick_last_read
  · rw [update_of_eq h]
  · rw [update_of_ne h, (count_frame _ _).1]

theorem update_frame (c : TickerClock) :
    c.update_present_time.frequency = c.frequency ∧
    c.update_present_time.bitmask = c.bitmask ∧
    c.update_present_time.max_delta = c.max_delta ∧
    c.update_present_time.max_delta_us = c.max_delta_us ∧
    c.update_present_time.tick_last_read = c.interface.lag.shows := by
  by_cases h : c.interface.lag.shows = c.tick_last_read
  · rw [update_of_eq h]
    exact ⟨rfl, rfl, rfl, rfl, h.symm⟩
  · rw [update_of_ne h]
    exact (count_frame _ _).2

/-! ### What is set once -/

/-- What `initializeQueue` derives from the counter. -/
structure Calibrated (c : TickerClock) : Prop where
  bits_ge : 4 ≤ c.interface.bits
  bits_le : c.interface.bits ≤ 32
  frequency_pos : 0 < c.frequency
  frequency_lt : c.frequency < 2 ^ 32
  bitmask : c.bitmask = Wrap.mask 32 c.interface.bits
  max_delta : c.max_delta.toNat = 7 * 2 ^ (c.interface.bits - 4)
  max_delta_us : c.max_delta_us =
    (7 * 2 ^ (c.interface.bits - 4) * 1000000 + c.frequency - 1) / c.frequency

/-- Whatever happens to the counter. -/
theorem Calibrated.interface {c : TickerClock} (h : c.Calibrated) {i : Counter}
    (hbits : i.bits = c.interface.bits) : ({ c with interface := i } : TickerClock).Calibrated := by
  constructor <;> simp only [hbits]
  exacts [h.bits_ge, h.bits_le, h.frequency_pos, h.frequency_lt, h.bitmask, h.max_delta,
    h.max_delta_us]

theorem Calibrated.update {c : TickerClock} (h : c.Calibrated) :
    c.update_present_time.Calibrated := by
  have hbits : c.update_present_time.interface.bits = c.interface.bits := by
    rw [update_interface]
    exact c.interface.later_lag.bits
  obtain ⟨h1, h2, h3, h4, -⟩ := c.update_frame
  constructor <;> simp only [hbits, h1, h2, h3, h4]
  exacts [h.bits_ge, h.bits_le, h.frequency_pos, h.frequency_lt, h.bitmask, h.max_delta,
    h.max_delta_us]

theorem Calibrated.acts {c c' : TickerClock} (h : c.Calibrated) (hact : Acts c c') :
    c'.Calibrated := by
  cases hact with
  | update => exact h.update
  | interface i hi => exact h.interface hi.bits

/-! ### The time read -/

/-- The clock has last read the counter at tick `seen` and has counted `counted` ticks. -/
structure Reads (c : TickerClock) (seen counted : ℕ) : Prop where
  le_now : seen ≤ c.interface.now
  last : c.tick_last_read = Wrap.shown 32 c.interface.bits seen
  total : c.present_time * c.frequency + c.tick_remainder = counted * 1000000
  remainder : c.tick_remainder < c.frequency

theorem Reads.interface {c : TickerClock} {seen counted : ℕ} (h : c.Reads seen counted)
    {i : Counter} (hbits : i.bits = c.interface.bits) (hnow : c.interface.now ≤ i.now) :
    ({ c with interface := i } : TickerClock).Reads seen counted where
  le_now := h.le_now.trans hnow
  last := by
    simp only [hbits]
    exact h.last
  total := h.total
  remainder := h.remainder

/-- **An update counts the ticks since the last reading**, modulo a round of the counter. -/
theorem Reads.update {c : TickerClock} {seen counted : ℕ} (h : c.Reads seen counted)
    (hc : c.Calibrated) :
    c.update_present_time.Reads c.interface.lag.now
      (counted + (c.interface.lag.now - seen) % 2 ^ c.interface.bits) := by
  have hlag := c.interface.later_lag
  have hle : seen ≤ c.interface.lag.now := h.le_now.trans hlag.now_le
  have hshows : c.interface.lag.shows = Wrap.shown 32 c.interface.bits c.interface.lag.now := by
    rw [← hlag.bits]
    rfl
  have helapsed : c.elapsed_ticks = (c.interface.lag.now - seen) % 2 ^ c.interface.bits := by
    rw [elapsed_ticks, hshows, h.last, hc.bitmask, Wrap.elapsed hc.bits_le hle]
  obtain ⟨hf, -, -, -, hlast⟩ := c.update_frame
  have htotal : c.update_present_time.present_time * c.frequency +
      c.update_present_time.tick_remainder =
        c.present_time * c.frequency + c.tick_remainder + c.elapsed_ticks * 1000000 ∧
      c.update_present_time.tick_remainder < c.frequency := by
    by_cases heq : c.interface.lag.shows = c.tick_last_read
    · -- an unchanged reading is a whole number of rounds
      have hround : c.elapsed_ticks = 0 := by simp [elapsed_ticks, heq]
      rw [update_of_eq heq, hround, zero_mul, add_zero]
      exact ⟨rfl, h.remainder⟩
    · rw [update_of_ne heq]
      exact count_spec (c := { c with
        interface := c.interface.lag, tick_last_read := c.interface.lag.shows }) h.remainder _
  constructor
  · rw [update_interface]
  · rw [hlast, hshows, update_interface, hlag.bits]
  · rw [hf, htotal.1, h.total, helapsed, add_mul]
  · rw [hf]
    exact htotal.2

/-- **The microseconds of the ticks counted**, however often the counter was read. -/
theorem Reads.present_time_eq {c : TickerClock} {seen counted : ℕ} (h : c.Reads seen counted) :
    c.present_time = counted * 1000000 / c.frequency := by
  have hpos : 0 < c.frequency := Nat.zero_lt_of_lt h.remainder
  rw [← h.total, mul_comm, Nat.mul_add_div hpos, Nat.div_eq_of_lt h.remainder, add_zero]

/-! ### The tick of an event -/

/-- The general case of `compute_tick`. -/
def compute_tickGeneral (c : TickerClock) (timestamp : ℕ) : BitVec 32 :=
  let delta_us := timestamp - c.present_time
  let delta :=
    if delta_us ≤ c.max_delta_us then
      let delta := BitVec.ofNat 32 (delta_us * c.frequency / 1000000)
      if delta > c.max_delta then c.max_delta else delta
    else c.max_delta
  (c.tick_last_read + delta) &&& c.bitmask

theorem compute_tick_eq_general (c : TickerClock) (timestamp : ℕ) :
    c.compute_tick timestamp = c.compute_tickGeneral timestamp := by
  unfold compute_tick compute_tickGeneral
  dsimp only
  by_cases h1 : 1000000 = c.frequency
  · have hq : (timestamp - c.present_time) * c.frequency / 1000000 =
        timestamp - c.present_time := by
      rw [← h1, Nat.mul_div_cancel _ (by norm_num)]
    simp only [if_pos h1, hq]
  · by_cases h2 : 32768 = c.frequency
    · have hq : (timestamp - c.present_time) <<< 15 =
          (timestamp - c.present_time) * c.frequency := by
        rw [Nat.shiftLeft_eq, ← h2]
      simp only [if_neg h1, if_pos h2, hq]
    · simp only [if_neg h1, if_neg h2]

/-- The product that `compute_tick` takes is far below 64 bits, and its quotient below 32. -/
theorem Calibrated.delta_lt {c : TickerClock} (h : c.Calibrated) {delta_us : ℕ}
    (hdelta : delta_us ≤ c.max_delta_us) :
    delta_us * c.frequency < 2 ^ 52 ∧ delta_us * c.frequency / 1000000 < 2 ^ 32 := by
  have hmax := Nat.div_mul_le_self
    (7 * 2 ^ (c.interface.bits - 4) * 1000000 + c.frequency - 1) c.frequency
  rw [← h.max_delta_us] at hmax
  have hle : delta_us * c.frequency ≤ c.max_delta_us * c.frequency := Nat.mul_le_mul_right _ hdelta
  have hpow : 2 ^ (c.interface.bits - 4) ≤ 2 ^ 28 :=
    Nat.pow_le_pow_right (by norm_num) (by have := h.bits_le; omega)
  have hlt := h.frequency_lt
  generalize 2 ^ (c.interface.bits - 4) = q at hmax hpow
  generalize delta_us * c.frequency = x at hle ⊢
  generalize c.max_delta_us * c.frequency = y at hmax hle
  omega

/-- **The tick of an event** is the last one not after the event, or `max_delta` ahead. -/
theorem Calibrated.compute_tick {c : TickerClock} (h : c.Calibrated) {seen counted : ℕ}
    (hr : c.Reads seen counted) (timestamp : ℕ) :
    c.compute_tick timestamp = Wrap.shown 32 c.interface.bits (seen +
      min (7 * 2 ^ (c.interface.bits - 4))
        ((timestamp - c.present_time) * c.frequency / 1000000)) := by
  rw [compute_tick_eq_general, compute_tickGeneral, h.bitmask, hr.last,
    ← Wrap.advance h.bits_le]
  congr 2
  rw [← h.max_delta, ← BitVec.toNat_inj]
  have hmax : c.max_delta.toNat < 2 ^ 32 := c.max_delta.isLt
  generalize timestamp - c.present_time = delta_us
  dsimp only
  split_ifs with hdelta hgt
  · have hlt := (h.delta_lt hdelta).2
    rw [gt_iff_lt, BitVec.lt_def, BitVec.toNat_ofNat, Nat.mod_eq_of_lt hlt] at hgt
    rw [min_eq_left hgt.le, BitVec.toNat_ofNat, Nat.mod_eq_of_lt hmax]
  · have hlt := (h.delta_lt hdelta).2
    rw [gt_iff_lt, BitVec.lt_def, BitVec.toNat_ofNat, Nat.mod_eq_of_lt hlt, not_lt] at hgt
    rw [min_eq_right hgt]
  · -- beyond `max_delta_us` the event is more than `max_delta` ticks ahead
    have hfar : c.max_delta.toNat ≤ delta_us * c.frequency / 1000000 := by
      rw [Nat.le_div_iff_mul_le (by norm_num), h.max_delta]
      have hlt : c.max_delta_us < delta_us := by omega
      rw [h.max_delta_us, Nat.div_lt_iff_lt_mul h.frequency_pos] at hlt
      omega
    rw [min_eq_left hfar, BitVec.toNat_ofNat, Nat.mod_eq_of_lt hmax]

/-! ### The start -/

/-- A counter whose `ticker_info_t` passes the assertions of `initializeQueue`. -/
def Valid (interface : Counter) : Prop :=
  4 ≤ interface.bits ∧ interface.bits ≤ 32 ∧ 0 < interface.frequency ∧ interface.frequency < 2 ^ 32

instance (interface : Counter) : Decidable (Valid interface) := inferInstanceAs (Decidable (_ ∧ _))

/-- The clock of `initializeQueue` before it looks at the counter again. -/
def fresh (interface : Counter) : TickerClock where
  interface := interface.lag
  frequency := interface.frequency
  bitmask := BitVec.ofNat 32 (1 <<< interface.bits - 1)
  max_delta := BitVec.ofNat 32 (0x7 <<< (interface.bits - 4))
  max_delta_us := (0x7 <<< (interface.bits - 4) * 1000000 + interface.frequency - 1) /
    interface.frequency
  tick_last_read := interface.lag.shows
  tick_remainder := 0
  present_time := 0

theorem initializeQueue_eq {interface : Counter} (h : Valid interface) :
    initializeQueue interface = (fresh interface).update_present_time.schedule_interrupt none := by
  obtain ⟨h1, h2, h3, -⟩ := h
  unfold initializeQueue
  rw [if_neg (by omega), if_neg (by omega)]
  rfl

theorem evolves_initializeQueue {interface : Counter} (h : Valid interface) :
    (fresh interface).Evolves (initializeQueue interface) := by
  rw [initializeQueue_eq h]
  exact (evolves_update _).trans (evolves_schedule_interrupt _ _)

theorem calibrated_fresh {interface : Counter} (h : Valid interface) :
    (fresh interface).Calibrated := by
  obtain ⟨h1, h2, h3, h4⟩ := h
  have hbits : (fresh interface).interface.bits = interface.bits := interface.later_lag.bits
  have hpow : 7 * 2 ^ (interface.bits - 4) < 2 ^ 32 := by
    have hle : 2 ^ (interface.bits - 4) ≤ 2 ^ 28 :=
      Nat.pow_le_pow_right (by norm_num) (by omega)
    omega
  constructor
  · rwa [hbits]
  · rwa [hbits]
  · exact h3
  · exact h4
  · rw [hbits]
    simp [fresh, Wrap.mask, Nat.shiftLeft_eq]
  · rw [hbits]
    simp only [fresh, Nat.shiftLeft_eq, BitVec.toNat_ofNat]
    exact Nat.mod_eq_of_lt hpow
  · rw [hbits]
    simp only [fresh, Nat.shiftLeft_eq]

theorem reads_fresh {interface : Counter} (h : Valid interface) :
    (fresh interface).Reads interface.lag.now 0 where
  le_now := le_rfl
  last := rfl
  total := by simp [fresh]
  remainder := h.2.2.1

/-! ### Whatever the driver does -/

theorem Evolves.calibrated {c c' : TickerClock} (h : c.Evolves c') (hc : c.Calibrated) :
    c'.Calibrated :=
  h.invariant hc fun _ _ hc hact => hc.acts hact

theorem present_time_le_update (c : TickerClock) :
    c.present_time ≤ c.update_present_time.present_time := by
  by_cases h : c.interface.lag.shows = c.tick_last_read
  · rw [update_of_eq h]
  · rw [update_of_ne h]
    unfold count carry
    dsimp only
    split_ifs <;> exact Nat.le_add_right _ _

/-- **The time never goes back.** -/
theorem Evolves.present_time_le {c c' : TickerClock} (h : c.Evolves c') :
    c.present_time ≤ c'.present_time := by
  refine h.invariant (P := fun c' => c.present_time ≤ c'.present_time) le_rfl
    fun c₁ c₂ h1 hact => ?_
  cases hact with
  | update => exact h1.trans c₁.present_time_le_update
  | interface i hi => exact h1

theorem Evolves.later {c c' : TickerClock} (h : c.Evolves c') : c.interface.Later c'.interface := by
  refine h.invariant (P := fun c' => c.interface.Later c'.interface) (.refl _)
    fun c₁ c₂ h1 hact => ?_
  cases hact with
  | update =>
    rw [update_interface]
    exact h1.trans (Counter.later_lag _)
  | interface i hi => exact h1.trans hi

theorem Evolves.frequency_eq {c c' : TickerClock} (h : c.Evolves c') :
    c'.frequency = c.frequency := by
  refine h.invariant (P := fun c' => c'.frequency = c.frequency) rfl fun c₁ c₂ h1 hact => ?_
  cases hact with
  | update => exact c₁.update_frame.1.trans h1
  | interface i hi => exact h1

/-- **Ticks are only lost by whole rounds of the counter**: what has been counted since the clock
was started at tick `start`. -/
def Counts (c : TickerClock) (start : ℕ) : Prop :=
  ∃ seen counted, c.Reads seen counted ∧ start + counted ≤ seen ∧
    (start + counted) % 2 ^ c.interface.bits = seen % 2 ^ c.interface.bits

theorem Counts.interface {c : TickerClock} {start : ℕ} (h : c.Counts start) {i : Counter}
    (hbits : i.bits = c.interface.bits) (hnow : c.interface.now ≤ i.now) :
    ({ c with interface := i } : TickerClock).Counts start := by
  obtain ⟨seen, counted, hr, hle, hmod⟩ := h
  refine ⟨seen, counted, hr.interface hbits hnow, hle, ?_⟩
  simp only [hbits]
  exact hmod

theorem Evolves.counts {c c' : TickerClock} {start : ℕ} (h : c.Evolves c') (hc : c.Calibrated)
    (h0 : c.Counts start) : c'.Counts start := by
  refine (h.invariant (P := fun c => c.Calibrated ∧ c.Counts start) ⟨hc, h0⟩ ?_).2
  rintro c₁ c₂ ⟨hc, hcounts⟩ hact
  refine ⟨hc.acts hact, ?_⟩
  cases hact with
  | update =>
    obtain ⟨seen, counted, hr, hle, hmod⟩ := hcounts
    have hlag := c₁.interface.later_lag
    have hseen : seen ≤ c₁.interface.lag.now := hr.le_now.trans hlag.now_le
    refine ⟨_, _, hr.update hc, ?_, ?_⟩
    · have hround := Nat.mod_le (c₁.interface.lag.now - seen) (2 ^ c₁.interface.bits)
      omega
    · rw [update_interface, hlag.bits, ← add_assoc, Nat.add_mod, hmod, Nat.mod_mod,
        ← Nat.add_mod, Nat.add_sub_cancel' hseen]
  | interface i hi => exact hcounts.interface hi.bits hi.now_le

/-- The clock has counted every tick up to its last reading, at tick `seen`, and will have at its
next one: less than a round will have gone by even when all its lags have. -/
structure Current (c : TickerClock) (start seen : ℕ) : Prop where
  start_le : start ≤ seen
  reads : c.Reads seen (seen - start)
  in_time : c.interface.now + c.interface.lags.sum < seen + 2 ^ c.interface.bits

theorem Current.update {c : TickerClock} {start seen : ℕ} (h : c.Current start seen)
    (hc : c.Calibrated) : c.update_present_time.Current start c.interface.lag.now := by
  have hlag := c.interface.later_lag
  have htotal := hlag.total
  have hin := h.in_time
  have hstart := h.start_le
  have hseen : seen ≤ c.interface.lag.now := h.reads.le_now.trans hlag.now_le
  have hupdate := h.reads.update hc
  rw [Nat.mod_eq_of_lt (by omega)] at hupdate
  refine ⟨by omega, ?_, ?_⟩
  · convert hupdate using 1
    omega
  · rw [update_interface, hlag.bits]
    have hpos : 0 < 2 ^ c.interface.bits := by positivity
    omega

/-- **A clock that is read in time loses nothing.** -/
theorem Evolves.current {c c' : TickerClock} {start seen : ℕ} (h : c.Evolves c')
    (hc : c.Calibrated) (h0 : c.Current start seen) :
    ∃ seen', seen ≤ seen' ∧ c'.Current start seen' := by
  refine (h.invariant (P := fun c => c.Calibrated ∧ ∃ seen', seen ≤ seen' ∧ c.Current start seen')
    ⟨hc, seen, le_rfl, h0⟩ ?_).2
  rintro c₁ c₂ ⟨hc, seen', hle, hcur⟩ hact
  refine ⟨hc.acts hact, ?_⟩
  cases hact with
  | update =>
    exact ⟨_, hle.trans (hcur.reads.le_now.trans c₁.interface.later_lag.now_le), hcur.update hc⟩
  | interface i hi =>
    refine ⟨seen', hle, hcur.start_le, hcur.reads.interface hi.bits hi.now_le, ?_⟩
    have htotal := hi.total
    have hin := hcur.in_time
    simp only [hi.bits]
    omega

end TickerClock

end NucleoMotor
