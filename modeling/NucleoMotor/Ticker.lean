import NucleoMotor.Lib.Fallible
import NucleoMotor.UsTicker

/-!
# `Ticker` objects

`mbed-os/drivers/Ticker.cpp` and `TimerEvent.cpp` on the microsecond ticker.  `α` are the `Ticker`
objects, `β` the functions attached to them and `γ` is what these functions act on: a function is
the list of the commands that its `code` runs, which may attach and detach tickers in turn.

The main program's commands and the ticker's interrupt take place one after another, each in a
critical section.  `calls` records the calls of the attached functions, the latest first.
-/

namespace NucleoMotor

/-- The fields of class `Ticker`, beside its event. -/
structure Ticker (β : Type) where
  delay : ℕ
  function : Option β
  deriving DecidableEq, Repr

/-- A call of a ticker's function: the time it was due, and the present time. -/
structure TickerCall (α : Type) where
  ticker : α
  timestamp : ℕ
  present_time : ℕ
  deriving DecidableEq, Repr

structure Tickers (α β γ : Type) where
  data : TickerData α
  ticker : α → Ticker β
  deep_sleep_lock : ℕ
  world : γ
  calls : List (TickerCall α)

/-- What the program does with tickers and with the time. -/
inductive Command (α β γ : Type)
  | attach_us (i : α) (func : β) (t : ℕ)
  | detach (i : α)
  | read (f : ℕ → γ → γ)
  | act (f : γ → γ)

/-! ### The sleep manager -/

/-- `none` is the call of `error`. -/
def sleep_manager_lock_deep_sleep (deep_sleep_lock : ℕ) : Option ℕ :=
  if deep_sleep_lock = 65535 then none else some (deep_sleep_lock + 1)

def sleep_manager_unlock_deep_sleep (deep_sleep_lock : ℕ) : Option ℕ :=
  if deep_sleep_lock = 0 then none else some (deep_sleep_lock - 1)

namespace Tickers

variable {α β γ : Type} [DecidableEq α] [Fintype α]

/-! ### `TimerEvent` -/

def insert_absolute (s : Tickers α β γ) (i : α) (timestamp : ℕ) : Option (Tickers α β γ) :=
  (s.data.ticker_insert_event_us i timestamp i).map fun data => { s with data }

def remove (s : Tickers α β γ) (i : α) : Option (Tickers α β γ) :=
  (s.data.ticker_remove_event i).map fun data => { s with data }

/-! ### `Ticker` -/

def setTicker (s : Tickers α β γ) (i : α) (t : Ticker β) : Tickers α β γ :=
  { s with ticker := Function.update s.ticker i t }

def setup (s : Tickers α β γ) (i : α) (t : ℕ) : Option (Tickers α β γ) := do
  let s ← s.remove i
  let s := s.setTicker i { s.ticker i with delay := t }
  let (now, data) := s.data.ticker_read_us
  ({ s with data } : Tickers α β γ).insert_absolute i (t + now)

/-- `attach_us`, of a ticker that keeps the processor from deep sleep. -/
def attach_us (s : Tickers α β γ) (i : α) (func : β) (t : ℕ) : Option (Tickers α β γ) := do
  let deep_sleep_lock ← if (s.ticker i).function.isNone then
    sleep_manager_lock_deep_sleep s.deep_sleep_lock else some s.deep_sleep_lock
  let s := { s with deep_sleep_lock }
  (s.setTicker i { s.ticker i with function := some func }).setup i t

def detach (s : Tickers α β γ) (i : α) : Option (Tickers α β γ) := do
  let s ← s.remove i
  let deep_sleep_lock ← if (s.ticker i).function.isSome then
    sleep_manager_unlock_deep_sleep s.deep_sleep_lock else some s.deep_sleep_lock
  let s := { s with deep_sleep_lock }
  return s.setTicker i { s.ticker i with function := none }

def command (s : Tickers α β γ) : Command α β γ → Option (Tickers α β γ)
  | .attach_us i func t => s.attach_us i func t
  | .detach i => s.detach i
  | .read f =>
    let (now, data) := s.data.ticker_read_us
    some { s with data, world := f now s.world }
  | .act f => some { s with world := f s.world }

def commands (s : Tickers α β γ) (cs : List (Command α β γ)) : Option (Tickers α β γ) :=
  Fallible.run command s cs

/-- `handler`: the event is listed again before the function is called. -/
def handler (code : β → List (Command α β γ)) (s : Tickers α β γ) (i : α) :
    Option (Tickers α β γ) := do
  let present_time := s.data.clock.present_time
  let timestamp := s.data.timestamp i
  let s ← s.insert_absolute i (timestamp + (s.ticker i).delay)
  match (s.ticker i).function with
  | none => some s
  | some func =>
    ({ s with calls := ⟨i, timestamp, present_time⟩ :: s.calls } : Tickers α β γ).commands
      (code func)

/-! ### The interrupt -/

def update_present_time (s : Tickers α β γ) : Tickers α β γ :=
  { s with data := { s.data with clock := s.data.clock.update_present_time } }

/-- The loop of `ticker_irq_handler`. -/
def dispatch (code : β → List (Command α β γ)) : ℕ → Tickers α β γ → Option (Tickers α β γ)
  | 0, _ => none
  | fuel + 1, s =>
    match s.data.head with
    | none => some s
    | some p =>
      let s := s.update_present_time
      if s.data.timestamp p ≤ s.data.clock.present_time then do
        let s ← ({ s with data := s.data.drop p } : Tickers α β γ).handler code (s.data.event p).id
        dispatch code fuel s
      else some s

def clear_interrupt (s : Tickers α β γ) : Tickers α β γ :=
  { s with data := { s.data with
    clock := { s.data.clock with interface := s.data.clock.interface.clear_interrupt } } }

def ticker_irq_handler (code : β → List (Command α β γ)) (fuel : ℕ) (s : Tickers α β γ) :
    Option (Tickers α β γ) :=
  (dispatch code fuel s.clear_interrupt).map fun s =>
    { s with data := s.data.schedule_interrupt }

/-! ### Runs -/

/-- Time passes, the main program runs a command, or the ticker interrupts it. -/
inductive Occurrence (α β γ : Type)
  | elapse (d : ℕ)
  | command (c : Command α β γ) (lags : List ℕ)
  | interrupt (lags : List ℕ)

def setInterface (s : Tickers α β γ) (interface : Counter) : Tickers α β γ :=
  { s with data := { s.data with clock := { s.data.clock with interface } } }

/-- The code starts, with the time that it is going to take. -/
def enter (s : Tickers α β γ) (lags : List ℕ) : Tickers α β γ :=
  s.setInterface { s.data.clock.interface with lags }

def step (code : β → List (Command α β γ)) (fuel : ℕ) (s : Tickers α β γ) :
    Occurrence α β γ → Option (Tickers α β γ)
  | .elapse d => some (s.setInterface (s.data.clock.interface.elapse d))
  | .command c lags => (s.enter lags).command c
  | .interrupt lags => (s.enter lags).ticker_irq_handler code fuel

/-- No ticker is attached yet. -/
def start (interface : Counter) (event : α → TickerEvent α) (delay : α → ℕ)
    (deep_sleep_lock : ℕ) (world : γ) : Tickers α β γ where
  data := ⟨TickerClock.initializeQueue interface, none, event⟩
  ticker i := ⟨delay i, none⟩
  deep_sleep_lock := deep_sleep_lock
  world := world
  calls := []

end Tickers

end NucleoMotor
