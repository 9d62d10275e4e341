import NucleoMotor.Lib.Flags

/-!
# Interrupts of the pins

`mbed-os/drivers/InterruptIn.cpp` on `mbed-os/targets/TARGET_STM/gpio_irq_api.c`, for the STM32F4,
with the hardware under them.  The sixteen lines of the EXTI listen to one pin each, of the number
of the line, and flag its edges; the NVIC has one vector for several lines.

* `handle_interrupt_in` serves the first flagged line of a vector and returns; the NVIC enters it
  again while a line is flagged (`Asserted`).  It reads the pin to tell which edge it was, some time
  after it has cleared the flag: the edges between the two are its argument `during`.
* Masks and registers are functions from their bits, and an identifier is a pointer or none.
-/

namespace NucleoMotor

open Runs

/-- `gpio_irq_event`. -/
inductive GpioIrqEvent
  | IRQ_NONE
  | IRQ_RISE
  | IRQ_FALL
  deriving DecidableEq, Repr

/-- A pin: its port, `STM_PORT`, and its number there, `STM_PIN`. -/
structure PinName where
  port : ℕ
  pin : Fin 16
  deriving DecidableEq, Repr

def PA_8 : PinName := ⟨0, 8⟩

def PA_9 : PinName := ⟨0, 9⟩

/-- `exti_lines_t`, without the vector's number, which `irq_index` determines. -/
structure ExtiLines where
  gpio_idx : ℕ
  irq_index : ℕ
  deriving DecidableEq, Repr

def pin_lines_desc : Fin 16 → ExtiLines :=
  ![⟨0, 0⟩, ⟨0, 1⟩, ⟨0, 2⟩, ⟨0, 3⟩, ⟨0, 4⟩, ⟨0, 5⟩, ⟨1, 5⟩, ⟨2, 5⟩, ⟨3, 5⟩, ⟨4, 5⟩, ⟨0, 6⟩, ⟨1, 6⟩,
    ⟨2, 6⟩, ⟨3, 6⟩, ⟨4, 6⟩, ⟨5, 6⟩]

/-- `EXTI_IRQ0_NUM_LINES`, …, `EXTI_IRQ6_NUM_LINES`. -/
def EXTI_IRQ_NUM_LINES : ℕ → ℕ
  | 0 | 1 | 2 | 3 | 4 => 1
  | 5 => 5
  | 6 => 6
  | _ => 0

/-! ### The hardware -/

/-- The levels of the pins, the registers of the EXTI with the port that each line listens to, and
the vectors that the NVIC lets through. -/
structure Exti where
  IDR : PinName → Bool
  EXTICR : Fin 16 → ℕ
  IMR : Fin 16 → Bool
  RTSR : Fin 16 → Bool
  FTSR : Fin 16 → Bool
  PR : Fin 16 → Bool
  ISER : ℕ → Bool

namespace Exti

/-- The EXTI latches the edge that the pin is about to make. -/
def latches (x : Exti) (p : PinName) : Bool :=
  decide (x.EXTICR p.pin = p.port) && if x.IDR p then x.FTSR p.pin else x.RTSR p.pin

/-- An edge of a pin. -/
def edge (x : Exti) (p : PinName) : Exti :=
  { x with
    IDR := Function.update x.IDR p (!x.IDR p)
    PR := if x.latches p then Function.update x.PR p.pin true else x.PR }

/-- `__HAL_GPIO_EXTI_CLEAR_FLAG`. -/
def clearFlag (x : Exti) (line : Fin 16) : Exti :=
  { x with PR := Function.update x.PR line false }

/-- The vector is entered: it is enabled, and one of its lines is flagged and not masked. -/
def Asserted (x : Exti) (irq_index : ℕ) : Prop :=
  x.ISER irq_index = true ∧
    ∃ line, (pin_lines_desc line).irq_index = irq_index ∧ x.IMR line = true ∧ x.PR line = true

instance (x : Exti) (irq_index : ℕ) : Decidable (x.Asserted irq_index) :=
  inferInstanceAs (Decidable (_ ∧ _))

end Exti

/-! ### `gpio_irq_api.c` -/

/-- The fields of `gpio_irq_t`, `event` by its bits. -/
structure GpioIrq where
  irq_index : ℕ
  rise : Bool
  fall : Bool
  pin : PinName
  deriving DecidableEq, Repr

namespace GpioIrq

def gpio_irq_set (obj : GpioIrq) (x : Exti) (event : GpioIrqEvent) (enable : Bool) :
    GpioIrq × Exti :=
  match event with
  | .IRQ_NONE => (obj, x)
  | .IRQ_RISE =>
    ({ obj with rise := enable }, { x with RTSR := Function.update x.RTSR obj.pin.pin enable })
  | .IRQ_FALL =>
    ({ obj with fall := enable }, { x with FTSR := Function.update x.FTSR obj.pin.pin enable })

def gpio_irq_enable (obj : GpioIrq) (x : Exti) : Exti :=
  { x with
    EXTICR := Function.update x.EXTICR obj.pin.pin obj.pin.port
    IMR := Function.update x.IMR obj.pin.pin true
    RTSR := if obj.rise then Function.update x.RTSR obj.pin.pin true else x.RTSR
    FTSR := if obj.fall then Function.update x.FTSR obj.pin.pin true else x.FTSR
    ISER := Function.update x.ISER obj.irq_index true }

/-- `gpio_irq_disable`, which disables the whole vector. -/
def gpio_irq_disable (obj : GpioIrq) (x : Exti) : Exti :=
  { x with
    RTSR := Function.update x.RTSR obj.pin.pin false
    FTSR := Function.update x.FTSR obj.pin.pin false
    IMR := Function.update x.IMR obj.pin.pin false
    ISER := Function.update x.ISER obj.irq_index false }

end GpioIrq

/-- `gpio_channel_t`. -/
structure GpioChannel (ι : Type) where
  pin_mask : ℕ → Bool
  channel_ids : ℕ → Option ι
  channel_gpio : ℕ → ℕ
  channel_pin : ℕ → Fin 16

/-- An entry of the channel. -/
def GpioChannel.set {ι : Type} (c : GpioChannel ι) (gpio_idx : ℕ) (mask : Bool) (id : Option ι)
    (gpio : ℕ) (pin : Fin 16) : GpioChannel ι where
  pin_mask := Function.update c.pin_mask gpio_idx mask
  channel_ids := Function.update c.channel_ids gpio_idx id
  channel_gpio := Function.update c.channel_gpio gpio_idx gpio
  channel_pin := Function.update c.channel_pin gpio_idx pin

/-- The fields of class `InterruptIn`; callbacks are named by a type of functions. -/
structure InterruptIn (β : Type) where
  gpio_irq : GpioIrq
  _rise : Option β
  _fall : Option β
  deriving DecidableEq, Repr

/-- The hardware, the channels, the objects of class `InterruptIn` by their addresses, and what the
program's functions act on; `error` says that `error` was called, which does not return. -/
structure Interrupts (ι β γ : Type) where
  exti : Exti
  channels : ℕ → GpioChannel ι
  interruptIn : ι → Option (InterruptIn β)
  world : γ
  error : Bool

namespace Interrupts

variable {ι β γ : Type} [DecidableEq ι]

/-- `gpio_irq_init`, for a pin that is connected. -/
def gpio_irq_init (s : Interrupts ι β γ) (pin : PinName) (id : ι) : GpioIrq × Interrupts ι β γ :=
  let desc := pin_lines_desc pin.pin
  let obj : GpioIrq := ⟨desc.irq_index, false, false, pin⟩
  let gpio_channel := s.channels desc.irq_index
  let gpio_channel := gpio_channel.set desc.gpio_idx true (some id) pin.port pin.pin
  (obj, { s with
    channels := Function.update s.channels desc.irq_index gpio_channel
    exti := obj.gpio_irq_enable s.exti })

omit [DecidableEq ι] in
def gpio_irq_free (s : Interrupts ι β γ) (obj : GpioIrq) : Interrupts ι β γ :=
  let gpio_idx := (pin_lines_desc obj.pin.pin).gpio_idx
  let gpio_channel := (s.channels obj.irq_index).set gpio_idx false none 0 0
  { s with
    exti := obj.gpio_irq_disable s.exti
    channels := Function.update s.channels obj.irq_index gpio_channel }

/-! ### `InterruptIn.cpp` -/

/-- The constructor. -/
def construct (s : Interrupts ι β γ) (id : ι) (pin : PinName) : Interrupts ι β γ :=
  let (gpio_irq, s) := s.gpio_irq_init pin id
  { s with interruptIn := Function.update s.interruptIn id (some ⟨gpio_irq, none, none⟩) }

/-- The destructor. -/
def destroy (s : Interrupts ι β γ) (id : ι) : Interrupts ι β γ :=
  match s.interruptIn id with
  | none => s
  | some o =>
    { s.gpio_irq_free o.gpio_irq with interruptIn := Function.update s.interruptIn id none }

/-- What the other functions do to an object and to the hardware. -/
def modify (s : Interrupts ι β γ) (id : ι) (f : InterruptIn β → Exti → InterruptIn β × Exti) :
    Interrupts ι β γ :=
  match s.interruptIn id with
  | none => s
  | some o =>
    { s with
      interruptIn := Function.update s.interruptIn id (some (f o s.exti).1)
      exti := (f o s.exti).2 }

def rise (s : Interrupts ι β γ) (id : ι) (func : Option β) : Interrupts ι β γ :=
  s.modify id fun o x =>
    let (gpio_irq, x) := o.gpio_irq.gpio_irq_set x .IRQ_RISE func.isSome
    ({ o with gpio_irq := gpio_irq, _rise := func }, x)

def fall (s : Interrupts ι β γ) (id : ι) (func : Option β) : Interrupts ι β γ :=
  s.modify id fun o x =>
    let (gpio_irq, x) := o.gpio_irq.gpio_irq_set x .IRQ_FALL func.isSome
    ({ o with gpio_irq := gpio_irq, _fall := func }, x)

def enable_irq (s : Interrupts ι β γ) (id : ι) : Interrupts ι β γ :=
  s.modify id fun o x => (o, o.gpio_irq.gpio_irq_enable x)

def disable_irq (s : Interrupts ι β γ) (id : ι) : Interrupts ι β γ :=
  s.modify id fun o x => (o, o.gpio_irq.gpio_irq_disable x)

variable (code : β → γ → γ)

/-- A callback, if there is one. -/
def callback (s : Interrupts ι β γ) : Option β → Interrupts ι β γ
  | none => s
  | some func => { s with world := code func s.world }

def _irq_handler (s : Interrupts ι β γ) (id : ι) (event : GpioIrqEvent) : Interrupts ι β γ :=
  match s.interruptIn id with
  | none => s
  | some handler =>
    match event with
    | .IRQ_RISE => s.callback code handler._rise
    | .IRQ_FALL => s.callback code handler._fall
    | .IRQ_NONE => s

/-- The loop of `handle_interrupt_in`. -/
def handle (during : List PinName) (irq_index : ℕ) (s : Interrupts ι β γ) :
    List ℕ → Interrupts ι β γ
  | [] => { s with error := true }
  | gpio_idx :: rest =>
    let gpio_channel := s.channels irq_index
    let pin := gpio_channel.channel_pin gpio_idx
    if gpio_channel.pin_mask gpio_idx ∧ s.exti.PR pin then
      let s := { s with exti := s.exti.clearFlag pin }
      match gpio_channel.channel_ids gpio_idx with
      | none => handle during irq_index s rest
      | some id =>
        let s := { s with exti := exec Exti.edge s.exti during }
        if s.exti.IDR ⟨gpio_channel.channel_gpio gpio_idx, pin⟩ then
          s._irq_handler code id .IRQ_RISE
        else s._irq_handler code id .IRQ_FALL
    else handle during irq_index s rest

def handle_interrupt_in (during : List PinName) (s : Interrupts ι β γ) (irq_index : ℕ) :
    Interrupts ι β γ :=
  s.handle code during irq_index (List.range (EXTI_IRQ_NUM_LINES irq_index))

/-! ### Runs -/

/-- A call of a function of an `InterruptIn`. -/
inductive Call (β : Type)
  | construct (pin : PinName)
  | destroy
  | rise (func : Option β)
  | fall (func : Option β)
  | enable_irq
  | disable_irq
  deriving DecidableEq, Repr

/-- What takes place: an edge, an interrupt, or the program calls a function of an `InterruptIn` or
one that acts on the world. -/
inductive Occurrence (ι β : Type)
  | edge (pin : PinName)
  | interrupt (irq_index : ℕ) (during : List PinName)
  | call (id : ι) (c : Call β)
  | act (func : β)
  deriving DecidableEq, Repr

def call (s : Interrupts ι β γ) (id : ι) : Call β → Interrupts ι β γ
  | .construct pin => s.construct id pin
  | .destroy => s.destroy id
  | .rise func => s.rise id func
  | .fall func => s.fall id func
  | .enable_irq => s.enable_irq id
  | .disable_irq => s.disable_irq id

def step (s : Interrupts ι β γ) (e : Occurrence ι β) : Interrupts ι β γ :=
  if s.error then s else
    match e with
    | .edge pin => { s with exti := s.exti.edge pin }
    | .interrupt irq_index during => s.handle_interrupt_in code during irq_index
    | .call id c => s.call id c
    | .act func => { s with world := code func s.world }

/-- After a reset, with the pins at the levels `IDR`. -/
def reset (IDR : PinName → Bool) (world : γ) : Interrupts ι β γ where
  exti := ⟨IDR, fun _ => 0, fun _ => false, fun _ => false, fun _ => false, fun _ => false,
    fun _ => false⟩
  channels := fun _ => ⟨fun _ => false, fun _ => none, fun _ => 0, fun _ => 0⟩
  interruptIn := fun _ => none
  world := world
  error := false

/-- No object has a pin of this number. -/
def Unused (s : Interrupts ι β γ) (line : Fin 16) : Prop :=
  ∀ id, ∀ o ∈ s.interruptIn id, o.gpio_irq.pin.pin ≠ line

/-- An interrupt comes when its vector is asserted, functions are called on objects that exist, and
an object is constructed for a line that no other one uses. -/
def Proper (s : Interrupts ι β γ) : Occurrence ι β → Prop
  | .edge _ => True
  | .interrupt irq_index _ => s.exti.Asserted irq_index
  | .call id (.construct pin) => s.interruptIn id = none ∧ s.Unused pin.pin
  | .call id _ => (s.interruptIn id).isSome
  | .act _ => True

instance [Fintype ι] (s : Interrupts ι β γ) (line : Fin 16) : Decidable (s.Unused line) :=
  inferInstanceAs (Decidable (∀ _, _))

instance [Fintype ι] (s : Interrupts ι β γ) : ∀ e, Decidable (s.Proper e)
  | .edge _ => inferInstanceAs (Decidable True)
  | .interrupt irq_index _ => inferInstanceAs (Decidable (s.exti.Asserted irq_index))
  | .call id (.construct pin) =>
    have : Decidable (s.interruptIn id = none) := decidable_of_iff _ Option.isNone_iff_eq_none
    inferInstanceAs (Decidable (s.interruptIn id = none ∧ s.Unused pin.pin))
  | .call id .destroy => inferInstanceAs (Decidable ((s.interruptIn id).isSome = true))
  | .call id (.rise _) => inferInstanceAs (Decidable ((s.interruptIn id).isSome = true))
  | .call id (.fall _) => inferInstanceAs (Decidable ((s.interruptIn id).isSome = true))
  | .call id .enable_irq => inferInstanceAs (Decidable ((s.interruptIn id).isSome = true))
  | .call id .disable_irq => inferInstanceAs (Decidable ((s.interruptIn id).isSome = true))
  | .act _ => inferInstanceAs (Decidable True)

end Interrupts

end NucleoMotor
