import NucleoMotor.EventVariable
import NucleoMotor.MotorControl
import NucleoMotor.Lib.Runs

/-!
# The motor LED

The event functions of `main.cpp`.  The button assigns `motorStartBtnChange`, whose callback
assigns `motorSteadySignal`, whose callback drives the LED and its blink ticker; `motorRunner`
assigns `motorSteadySignal` only where the result of `run` differs from the last one,
`prevMotorSteady`.  The motor itself is not part of the state: the result of its `run` is given
with the call of `motorRunner`, and its `stop` touches none of these globals.

The LED is to be dark without the motor, solid once the latest `run` since the start found the
motor steady, and blinking until then (`Truthful`).  Two slips break this (`truthful_iff`):
`motorStopper` assigns `motorSteadySignal` too, which starts the blinking, and `prevMotorSteady` is
not reset by a start.
-/

namespace NucleoMotor

open Runs

/-- The LED, and whether the blink ticker is attached. -/
@[ext] structure Lamp where
  ticker : Bool
  MotorLED : DigitalOut
  deriving DecidableEq, Repr

/-- What the ticker calls: `MotorLED = !MotorLED`. -/
def Lamp.blink (lamp : Lamp) : Lamp := { lamp with MotorLED := if lamp.MotorLED = 0 then 1 else 0 }

def MotorLEDBlinker (motorSteady : Bool) (lamp : Lamp) : Bool × Lamp :=
  if motorSteady then (motorSteady, { lamp with ticker := false, MotorLED := 1 })
  else (motorSteady, { lamp with ticker := true })

/-- What the callback of the button reaches. -/
structure Board where
  motorSteadySignal : EventVariable Lamp Bool
  lamp : Lamp

/-- `motorSteadySignal = rhs`. -/
def Board.setMotorSteadySignal (b : Board) (rhs : Bool) : Board :=
  let (motorSteadySignal, lamp) := b.motorSteadySignal.assign rhs b.lamp
  ⟨motorSteadySignal, lamp⟩

/-- With its callback attached, the assignment sets the lamp. -/
theorem Board.setMotorSteadySignal_eq (steady rhs : Bool) (lamp : Lamp) :
    Board.setMotorSteadySignal ⟨.ofStatefulCallback steady MotorLEDBlinker, lamp⟩ rhs =
      ⟨.ofStatefulCallback rhs MotorLEDBlinker, (MotorLEDBlinker rhs lamp).2⟩ := by
  unfold Board.setMotorSteadySignal
  simp only [EventVariable.assign_ofStatefulCallback]
  cases rhs <;> rfl

def motorStartBtnChangeEvent (motorState : Bool) (b : Board) : Bool × Board :=
  if !motorState then (motorState, { b with lamp := { b.lamp with ticker := false, MotorLED := 0 } })
  else (motorState, b.setMotorSteadySignal false)

/-- The globals of `main.cpp` that the event functions use. -/
structure Globals where
  board : Board
  motorStartBtnChange : EventVariable Board Bool
  prevMotorSteady : Bool

namespace Globals

/-- The initial globals: no initializer calls a callback. -/
def initial : Globals where
  board := ⟨.ofStatefulCallback true MotorLEDBlinker, ⟨false, 0⟩⟩
  motorStartBtnChange := .ofStatefulCallback false motorStartBtnChangeEvent
  prevMotorSteady := false

/-- The button: `motorStartBtnChange = !motorStartBtnChange`. -/
def press (g : Globals) : Globals :=
  let (motorStartBtnChange, board) := g.motorStartBtnChange.assign g.motorStartBtnChange.not g.board
  { g with motorStartBtnChange := motorStartBtnChange, board := board }

/-- `motorRunner`, when `run` returns `tempMotorSteady`. -/
def motorRunner (g : Globals) (tempMotorSteady : Bool) : Globals :=
  let g := if tempMotorSteady != g.prevMotorSteady then
    { g with board := g.board.setMotorSteadySignal tempMotorSteady } else g
  { g with prevMotorSteady := tempMotorSteady }

def motorStopper (g : Globals) : Globals :=
  { g with board := g.board.setMotorSteadySignal false }

/-- A call of the blink ticker. -/
def blink (g : Globals) : Globals := { g with board := { g.board with lamp := g.board.lamp.blink } }

/-! ### The events on the globals -/

/-- The globals with their callbacks attached as in `main.cpp`. -/
def wired (steady started prev : Bool) (lamp : Lamp) : Globals where
  board := ⟨.ofStatefulCallback steady MotorLEDBlinker, lamp⟩
  motorStartBtnChange := .ofStatefulCallback started motorStartBtnChangeEvent
  prevMotorSteady := prev

variable (steady started prev : Bool) (lamp : Lamp)

theorem press_wired : (wired steady started prev lamp).press =
    if started then wired steady false prev ⟨false, 0⟩
    else wired false true prev { lamp with ticker := true } := by
  unfold press
  simp only [wired, EventVariable.assign_ofStatefulCallback]
  cases started <;> rfl

theorem motorRunner_wired (result : Bool) : (wired steady started prev lamp).motorRunner result =
    if result = prev then wired steady started result lamp
    else if result then wired true started true ⟨false, 1⟩
    else wired false started false { lamp with ticker := true } := by
  unfold motorRunner
  by_cases h : result = prev
  · subst h
    simp [wired]
  · simp only [wired, bne_iff_ne, ne_eq, h, not_false_eq_true, if_true, if_false,
      Board.setMotorSteadySignal_eq]
    cases result <;> rfl

theorem motorStopper_wired : (wired steady started prev lamp).motorStopper =
    wired false started prev { lamp with ticker := true } := by
  unfold motorStopper
  simp only [wired, Board.setMotorSteadySignal_eq]
  rfl

theorem blink_wired : (wired steady started prev lamp).blink =
    wired steady started prev lamp.blink := rfl

end Globals

/-! ### Runs -/

inductive PanelEvent
  | press
  | motorRunner (result : Bool)
  | motorStopper
  | blink
  deriving DecidableEq, Repr

/-- The globals, and what the latest `motorRunner` since the last press saw `run` return. -/
structure Panel where
  globals : Globals
  latest : Option Bool

namespace Panel

def start : Panel := ⟨Globals.initial, none⟩

def step (p : Panel) : PanelEvent → Panel
  | .press => ⟨p.globals.press, none⟩
  | .motorRunner result => ⟨p.globals.motorRunner result, some result⟩
  | .motorStopper => ⟨p.globals.motorStopper, p.latest⟩
  | .blink => ⟨p.globals.blink, p.latest⟩

def started (p : Panel) : Bool := p.globals.motorStartBtnChange.value

def lamp (p : Panel) : Lamp := p.globals.board.lamp

/-- The main loop calls `motorRunner` or `motorStopper` as the button says, and the ticker calls
only while it is attached. -/
def Allowed (p : Panel) : PanelEvent → Prop
  | .press => True
  | .motorRunner _ => p.started = true
  | .motorStopper => p.started = false
  | .blink => p.lamp.ticker = true

instance (p : Panel) : ∀ e, Decidable (p.Allowed e)
  | .press => inferInstanceAs (Decidable True)
  | .motorRunner _ => inferInstanceAs (Decidable (p.started = true))
  | .motorStopper => inferInstanceAs (Decidable (p.started = false))
  | .blink => inferInstanceAs (Decidable (p.lamp.ticker = true))

/-- The LED tells the truth. -/
structure Truthful (p : Panel) : Prop where
  stopped : p.started = false → p.lamp.ticker = false ∧ p.lamp.MotorLED = 0
  steady : p.started = true → p.latest = some true →
    p.lamp.ticker = false ∧ p.lamp.MotorLED = 1
  unsteady : p.started = true → p.latest ≠ some true → p.lamp.ticker = true

/-- The event is not one of the two slips: a call of `motorStopper`, or the first `motorRunner`
after a start if it finds the motor steady and so did the last one before. -/
def NoSlip (p : Panel) : PanelEvent → Prop
  | .motorRunner result => ¬ (result = true ∧ p.globals.prevMotorSteady = true ∧ p.latest = none)
  | .motorStopper => False
  | _ => True

instance (p : Panel) : ∀ e, Decidable (p.NoSlip e)
  | .press => inferInstanceAs (Decidable True)
  | .motorRunner result => inferInstanceAs (Decidable
      (¬ (result = true ∧ p.globals.prevMotorSteady = true ∧ p.latest = none)))
  | .motorStopper => inferInstanceAs (Decidable False)
  | .blink => inferInstanceAs (Decidable True)

/-- The invariant of the allowed runs: the callbacks stay attached, and while the motor is started
`prevMotorSteady` is what the latest `motorRunner` saw. -/
def Consistent (p : Panel) : Prop :=
  ∃ steady started prev lamp, p.globals = Globals.wired steady started prev lamp ∧
    (started = true → ∀ result, p.latest = some result → prev = result)

theorem consistent_start : start.Consistent := ⟨true, false, false, ⟨false, 0⟩, rfl, by simp⟩

theorem truthful_wired {steady started prev : Bool} {lamp : Lamp} {latest : Option Bool} :
    Truthful ⟨Globals.wired steady started prev lamp, latest⟩ ↔
      (started = false → lamp = ⟨false, 0⟩) ∧
        (started = true → latest = some true → lamp = ⟨false, 1⟩) ∧
          (started = true → latest ≠ some true → lamp.ticker = true) := by
  simp only [Lamp.ext_iff]
  constructor
  · rintro ⟨h0, h1, h2⟩
    exact ⟨h0, h1, h2⟩
  · rintro ⟨h0, h1, h2⟩
    exact ⟨h0, h1, h2⟩

theorem Consistent.step {p : Panel} (h : p.Consistent) {e : PanelEvent} (he : p.Allowed e) :
    (p.step e).Consistent := by
  obtain ⟨globals, latest⟩ := p
  obtain ⟨steady, started, prev, lamp, rfl, hprev⟩ := h
  cases e with
  | press =>
    rw [Panel.step, Globals.press_wired]
    cases started
    · exact ⟨false, true, prev, _, rfl, by simp⟩
    · exact ⟨steady, false, prev, _, rfl, by simp⟩
  | motorRunner result =>
    rw [Panel.step, Globals.motorRunner_wired]
    split_ifs with heq hresult
    · exact ⟨steady, started, result, lamp, rfl, by simp⟩
    · exact ⟨true, started, true, _, rfl, by simp [hresult]⟩
    · exact ⟨false, started, false, _, rfl, by simp [hresult]⟩
  | motorStopper => exact ⟨false, started, prev, _, rfl, hprev⟩
  | blink => exact ⟨steady, started, prev, _, rfl, hprev⟩

/-- **One event keeps the truth exactly when it is none of the two slips.** -/
theorem truthful_step_iff {p : Panel} (h : p.Consistent) (ht : p.Truthful) {e : PanelEvent}
    (he : p.Allowed e) : (p.step e).Truthful ↔ p.NoSlip e := by
  obtain ⟨globals, latest⟩ := p
  obtain ⟨steady, started, prev, lamp, rfl, hprev⟩ := h
  obtain ⟨hstopped, hsteady, hunsteady⟩ := truthful_wired.1 ht
  cases e with
  | press =>
    refine iff_of_true ?_ trivial
    rw [Panel.step, Globals.press_wired]
    cases started <;> simp [truthful_wired]
  | motorRunner result =>
    obtain rfl : started = true := he
    show _ ↔ ¬ (result = true ∧ prev = true ∧ latest = none)
    rw [Panel.step, Globals.motorRunner_wired]
    split_ifs with heq hresult
    · -- nothing is assigned: the lamp must be right for the new result already
      subst heq
      rw [truthful_wired]
      cases latest with
      | none =>
        have hticker := hunsteady rfl (by simp)
        cases result <;> simp [hticker, Lamp.ext_iff]
      | some b =>
        obtain rfl := hprev rfl b rfl
        exact iff_of_true ⟨by simp, hsteady, hunsteady⟩ (by simp)
    · refine iff_of_true (by simp [truthful_wired, hresult]) ?_
      rintro ⟨-, rfl, -⟩
      exact heq hresult
    · exact iff_of_true (by simp [truthful_wired, hresult]) fun h => hresult h.1
  | motorStopper =>
    obtain rfl : started = false := he
    refine iff_of_false ?_ id
    rw [Panel.step, Globals.motorStopper_wired, truthful_wired]
    rintro ⟨h0, -⟩
    exact absurd (congrArg Lamp.ticker (h0 rfl)) (by simp)
  | blink =>
    refine iff_of_true ?_ trivial
    rw [Panel.step, Globals.blink_wired, truthful_wired]
    -- the ticker is attached, so the LED is not to be dark or solid
    have hticker : lamp.ticker = true := he
    refine ⟨fun hs => ?_, fun hs hl => ?_, fun hs hl => hunsteady hs hl⟩
    · rw [hstopped hs] at hticker
      cases hticker
    · rw [hsteady hs hl] at hticker
      cases hticker

/-- **Exactly when the motor LED tells the truth** throughout a run of the main loop. -/
theorem truthful_iff (es : List PanelEvent) (hes : AllSteps step Allowed start es) :
    Always step Truthful start es ↔ AllSteps step NoSlip start es :=
  always_iff_allSteps hes consistent_start (truthful_wired.2 (by simp))
    (fun _ _ h he => h.step he) fun _ _ h ht he => truthful_step_iff h ht he

/-- A start, a motor that becomes steady and unsteady again, a stop and a second start. -/
theorem truthful_iff_applies :
    Always step Truthful start [.press, .motorRunner false, .blink, .motorRunner true,
      .motorRunner true, .motorRunner false, .blink, .press, .press, .motorRunner true] :=
  (truthful_iff _ (by decide)).2 (by decide)

/-- The first call of `motorStopper`, before any start, makes the LED blink; and after a restart
it blinks on although the motor is found steady at once. -/
theorem not_truthful :
    (AllSteps step Allowed start [.motorStopper] ∧ ¬ Always step Truthful start [.motorStopper]) ∧
      let es := [.press, .motorRunner true, .press, .press, .motorRunner true]
      AllSteps step Allowed start es ∧ ¬ Always step Truthful start es := by
  refine ⟨⟨by decide, fun h => ?_⟩, by decide, fun h => ?_⟩
  · exact absurd ((h 1).stopped rfl).1 (by decide)
  · exact absurd ((h 5).steady rfl rfl).1 (by decide)

end Panel

end NucleoMotor
