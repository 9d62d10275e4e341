import NucleoMotor.Lib.Agenda
import NucleoMotor.Lib.Linked
import NucleoMotor.Lib.Wrap

/-!
# The microsecond ticker

`mbed-os/hal/mbed_ticker_api.c`, on which `Ticker` and `Timer` rest.  The hardware is a counter that
wraps around, with a compare register whose match raises the ticker's interrupt.  `TickerClock` is
what the driver keeps of the time, `TickerData` the linked list of the events to come, in a memory
where `α` are the addresses of the event objects.

Time passes while the code runs: `lags` are the ticks that go by before each of its next accesses
to the counter, a list of any length.  The loops over the list of events answer `none` where the
code would not come to an end.
-/

namespace NucleoMotor

/-! ### The counter -/

/-- The counter behind `ticker_interface_t`, of the `frequency` and the `bits` that its
`ticker_info_t` says.  `now` is the number of ticks so far and `pending` the tick at which the
interrupt was raised. -/
structure Counter where
  frequency : ℕ
  bits : ℕ
  now : ℕ
  compare : BitVec 32
  pending : Option ℕ
  lags : List ℕ
  deriving DecidableEq, Repr

namespace Counter

def shows (c : Counter) : BitVec 32 := Wrap.shown 32 c.bits c.now

/-- The ticks until the counter next steps to the value of the compare register. -/
def untilMatch (c : Counter) : ℕ :=
  (c.compare.toNat + (2 ^ c.bits - 1 - c.now % 2 ^ c.bits)) % 2 ^ c.bits + 1

/-- `d` ticks pass. -/
def elapse (c : Counter) (d : ℕ) : Counter :=
  { c with
    now := c.now + d
    pending :=
      if c.pending.isNone ∧ c.untilMatch ≤ d then some (c.now + c.untilMatch) else c.pending }

/-- The time before the next access. -/
def lag (c : Counter) : Counter :=
  match c.lags with
  | [] => c
  | d :: lags => ({ c with lags := lags } : Counter).elapse d

def read (c : Counter) : BitVec 32 × Counter := (c.lag.shows, c.lag)

def set_interrupt (c : Counter) (timestamp : BitVec 32) : Counter :=
  { c.lag with compare := timestamp }

def fire_interrupt (c : Counter) : Counter := { c with pending := some (c.pending.getD c.now) }

def clear_interrupt (c : Counter) : Counter := { c with pending := none }

end Counter

/-! ### The clock -/

/-- The fields of `ticker_event_queue_t` that keep the time. -/
structure TickerClock where
  interface : Counter
  frequency : ℕ
  bitmask : BitVec 32
  max_delta : BitVec 32
  max_delta_us : ℕ
  tick_last_read : BitVec 32
  tick_remainder : ℕ
  present_time : ℕ
  deriving DecidableEq, Repr

namespace TickerClock

/-- `elapsed_us` more microseconds, and `us_x_ticks` more in the remainder. -/
def carry (c : TickerClock) (elapsed_us us_x_ticks : ℕ) : TickerClock :=
  let tick_remainder := c.tick_remainder + us_x_ticks
  if tick_remainder ≥ c.frequency then
    { c with
      tick_remainder := tick_remainder - c.frequency
      present_time := c.present_time + (elapsed_us + 1) }
  else { c with tick_remainder, present_time := c.present_time + elapsed_us }

/-- The part of `update_present_time` that turns ticks into microseconds. -/
def count (c : TickerClock) (elapsed_ticks : ℕ) : TickerClock :=
  if 1000000 = c.frequency then { c with present_time := c.present_time + elapsed_ticks }
  else
    let us_x_ticks := elapsed_ticks * 1000000
    if 32768 = c.frequency then
      let elapsed_us := us_x_ticks >>> 15
      c.carry elapsed_us (us_x_ticks - elapsed_us <<< 15)
    else
      let elapsed_us := us_x_ticks / c.frequency
      c.carry elapsed_us (us_x_ticks - elapsed_us * c.frequency)

def update_present_time (c : TickerClock) : TickerClock :=
  let (ticker_time, interface) := c.interface.read
  let c := { c with interface }
  if ticker_time = c.tick_last_read then c
  else
    let elapsed_ticks := ((ticker_time - c.tick_last_read) &&& c.bitmask).toNat
    { c with tick_last_read := ticker_time }.count elapsed_ticks

/-- `compute_tick`, for a `timestamp` that is not before the present. -/
def compute_tick (c : TickerClock) (timestamp : ℕ) : BitVec 32 :=
  let delta_us := timestamp - c.present_time
  let limit (delta : BitVec 32) := if delta > c.max_delta then c.max_delta else delta
  let delta :=
    if delta_us ≤ c.max_delta_us then
      if 1000000 = c.frequency then limit (BitVec.ofNat 32 delta_us)
      else if 32768 = c.frequency then limit (BitVec.ofNat 32 (delta_us <<< 15 / 1000000))
      else limit (BitVec.ofNat 32 (delta_us * c.frequency / 1000000))
    else c.max_delta
  (c.tick_last_read + delta) &&& c.bitmask

/-- `_ticker_match_interval_passed`. -/
def match_interval_passed (prev_tick cur_tick match_tick : BitVec 32) : Bool :=
  if match_tick > prev_tick then cur_tick ≥ match_tick || cur_tick < prev_tick
  else cur_tick < prev_tick && cur_tick ≥ match_tick

def fire (c : TickerClock) : TickerClock := { c with interface := c.interface.fire_interrupt }

/-- `schedule_interrupt`, where `head` is the timestamp of the event at the head of the list. -/
def schedule_interrupt (c : TickerClock) (head : Option ℕ) : TickerClock :=
  let c := c.update_present_time
  match head with
  | some match_time =>
    if match_time ≤ c.present_time then c.fire
    else
      let match_tick := c.compute_tick match_time
      -- a microsecond of the future may still be a tick of the past
      if match_tick = c.tick_last_read then c.fire
      else
        let (cur_tick, interface) := (c.interface.set_interrupt match_tick).read
        let c := { c with interface }
        if match_interval_passed c.tick_last_read cur_tick match_tick then c.fire else c
  | none =>
    let match_tick := (c.tick_last_read + c.max_delta) &&& c.bitmask
    { c with interface := c.interface.set_interrupt match_tick }

/-- `initialize`, for the counter of an interface. -/
def initializeQueue (interface : Counter) : TickerClock :=
  let frequency := if interface.frequency = 0 then 1000000 else interface.frequency
  let bits := if interface.bits > 32 ∨ interface.bits < 4 then 32 else interface.bits
  let max_delta := 0x7 <<< (bits - 4)
  let (tick_last_read, interface) := interface.read
  let c : TickerClock :=
    { interface, frequency
      bitmask := BitVec.ofNat 32 (1 <<< bits - 1)
      max_delta := BitVec.ofNat 32 max_delta
      max_delta_us := (max_delta * 1000000 + frequency - 1) / frequency
      tick_last_read
      tick_remainder := 0
      present_time := 0 }
  c.update_present_time.schedule_interrupt none

end TickerClock

/-! ### The events -/

/-- `ticker_event_t`; its `id` is the object that the event belongs to. -/
structure TickerEvent (α : Type) where
  timestamp : ℕ
  id : α
  next : Option α
  deriving DecidableEq, Repr

/-- `ticker_data_t`, with the memory of the event objects. -/
structure TickerData (α : Type) where
  clock : TickerClock
  head : Option α
  event : α → TickerEvent α

namespace TickerData

variable {α : Type}

def next (t : TickerData α) (p : α) : Option α := (t.event p).next

def timestamp (t : TickerData α) (p : α) : ℕ := (t.event p).timestamp

def schedule_interrupt (t : TickerData α) : TickerData α :=
  { t with clock := t.clock.schedule_interrupt (t.head.map t.timestamp) }

def ticker_read_us (t : TickerData α) : ℕ × TickerData α :=
  let clock := t.clock.update_present_time
  (clock.present_time, { t with clock })

/-- The head of the list comes off. -/
def drop (t : TickerData α) (p : α) : TickerData α := { t with head := t.next p }

variable [DecidableEq α]

def setNext (t : TickerData α) (p : α) (next : Option α) : TickerData α :=
  { t with event := Function.update t.event p { t.event p with next } }

/-- The data of an event that is to be listed. -/
def write (t : TickerData α) (obj : α) (timestamp : ℕ) (id : α) : TickerData α :=
  { t with event := Function.update t.event obj { t.event obj with timestamp, id } }

/-- `obj` between `prev` and `p`. -/
def link (t : TickerData α) (obj : α) (prev p : Option α) : TickerData α :=
  let t := t.setNext obj p
  match prev with
  | none => { t with head := some obj }
  | some prev => t.setNext prev (some obj)

variable [Fintype α]

/-- More steps than a list without repetition can take. -/
def fuel (α : Type) [Fintype α] : ℕ := Fintype.card α + 1

def ticker_insert_event_us (t : TickerData α) (obj : α) (timestamp : ℕ) (id : α) :
    Option (TickerData α) :=
  let t := { t with clock := t.clock.update_present_time }.write obj timestamp id
  match Linked.seek t.next (fun p => timestamp < t.timestamp p) (fuel α) none t.head with
  | none => none
  | some (prev, p) => some (t.link obj prev p).schedule_interrupt

def ticker_remove_event (t : TickerData α) (obj : α) : Option (TickerData α) :=
  if t.head = some obj then some (t.drop obj).schedule_interrupt
  else
    match Linked.seek t.next (fun p => t.next p = some obj) (fuel α) none t.head with
    | none => none
    | some (_, none) => some t
    | some (_, some p) => some (t.setNext p (t.next obj))

end TickerData

end NucleoMotor
