import NucleoMotor.Lib.Runs

/-!
# The SPI driver

`mbed-os/drivers/SPI.cpp` on `mbed-os/targets/TARGET_STM/stm_spi_api.c`.  An object keeps its own
settings and a handle with what they come to for the hardware; all objects share the peripherals.
`_owner` is the object that configured last: only another one writes its settings before it sends.
An object goes and may leave `_owner` behind, and the next one may stand at its address.

* `spi_init` leaves `NSS` alone for a pin that is connected: in a new object it is `0`.
* What comes back from a peripheral is left out.
* The prescaler is its index in `baudrate_prescaler_table`: index `n` divides by `2 ^ (n + 1)`.
-/

namespace NucleoMotor

open Runs

inductive SpiDirection
  | SPI_DIRECTION_2LINES
  | SPI_DIRECTION_1LINE
  deriving DecidableEq, Repr

inductive SpiDataSize
  | SPI_DATASIZE_8BIT
  | SPI_DATASIZE_16BIT
  deriving DecidableEq, Repr

inductive SpiPolarity
  | SPI_POLARITY_LOW
  | SPI_POLARITY_HIGH
  deriving DecidableEq, Repr

inductive SpiPhase
  | SPI_PHASE_1EDGE
  | SPI_PHASE_2EDGE
  deriving DecidableEq, Repr

inductive SpiNss
  | SPI_NSS_SOFT
  | SPI_NSS_HARD_INPUT
  | SPI_NSS_HARD_OUTPUT
  deriving DecidableEq, Repr

/-- The fields of `SPI_InitTypeDef` that differ between objects of class `SPI`. -/
structure SpiInit where
  Direction : SpiDirection
  DataSize : SpiDataSize
  CLKPolarity : SpiPolarity
  CLKPhase : SpiPhase
  NSS : SpiNss
  BaudRatePrescaler : ℕ
  deriving DecidableEq, Repr

/-- The fields of class `SPI`, of its handle the peripheral and `Init`. -/
structure SPI where
  spi : ℕ
  Init : SpiInit
  _bits : ℤ
  _mode : ℤ
  _hz : ℤ
  deriving DecidableEq, Repr

/-- A word that a peripheral sends, with its configuration at that time. -/
structure Transfer where
  spi : ℕ
  Init : SpiInit
  value : BitVec 16
  deriving DecidableEq, Repr

/-! ### `stm_spi_api.c` -/

namespace SpiInit

/-- `spi_init`, for a peripheral whose `miso` and `ssel` are connected or not. -/
def spi_init (miso ssel : Bool) : SpiInit where
  Direction := if miso then .SPI_DIRECTION_2LINES else .SPI_DIRECTION_1LINE
  DataSize := .SPI_DATASIZE_8BIT
  CLKPolarity := .SPI_POLARITY_LOW
  CLKPhase := .SPI_PHASE_1EDGE
  NSS := if ssel then .SPI_NSS_HARD_INPUT else .SPI_NSS_SOFT
  BaudRatePrescaler := 7

/-- `spi_format` of a master. -/
def spi_format (i : SpiInit) (bits mode : ℤ) : SpiInit :=
  { i with
    DataSize := if bits = 16 then .SPI_DATASIZE_16BIT else .SPI_DATASIZE_8BIT
    CLKPolarity := if mode = 0 ∨ mode = 1 then .SPI_POLARITY_LOW else .SPI_POLARITY_HIGH
    CLKPhase := if mode = 0 ∨ mode = 2 then .SPI_PHASE_1EDGE else .SPI_PHASE_2EDGE
    NSS := if i.NSS ≠ .SPI_NSS_SOFT then .SPI_NSS_HARD_OUTPUT else i.NSS }

/-- The loop of `spi_frequency`, `left` steps before the last index: how far it still gets. -/
def prescaler_rank (hz : ℤ) (spi_hz : ℕ) : ℕ → ℕ
  | 0 => 0
  | left + 1 => if (spi_hz : ℤ) > hz then prescaler_rank hz (spi_hz / 2) left + 1 else 0

/-- `spi_frequency`, with the result of `spi_get_clock_freq`. -/
def spi_frequency (i : SpiInit) (clock : ℕ) (hz : ℤ) : SpiInit :=
  { i with BaudRatePrescaler := prescaler_rank hz (clock / 2) 7 }

/-- What `spi_master_write` puts into the data register. -/
def data (i : SpiInit) (value : BitVec 32) : BitVec 16 :=
  match i.DataSize with
  | .SPI_DATASIZE_8BIT => (value.setWidth 8).setWidth 16
  | .SPI_DATASIZE_16BIT => value.setWidth 16

end SpiInit

/-! ### `SPI.cpp` -/

/-- The peripherals, each with what `HAL_SPI_Init` wrote last, and the objects by their address. -/
structure Spis (ι : Type) where
  registers : ℕ → Option SpiInit
  object : ι → Option SPI
  _owner : Option ι

namespace Spis

variable {ι : Type} [DecidableEq ι] (clock : ℕ → ℕ)

omit [DecidableEq ι] in
def init_spi (s : Spis ι) (o : SPI) : Spis ι :=
  { s with registers := Function.update s.registers o.spi (some o.Init) }

omit [DecidableEq ι] in
def spi_format (s : Spis ι) (o : SPI) (bits mode : ℤ) : SPI × Spis ι :=
  let o := { o with Init := o.Init.spi_format bits mode }
  (o, s.init_spi o)

omit [DecidableEq ι] in
def spi_frequency (s : Spis ι) (o : SPI) (hz : ℤ) : SPI × Spis ι :=
  let o := { o with Init := o.Init.spi_frequency (clock o.spi) hz }
  (o, s.init_spi o)

def _acquire (s : Spis ι) (id : ι) (o : SPI) : SPI × Spis ι :=
  if s._owner ≠ some id then
    let (o, s) := s.spi_format o o._bits o._mode
    let (o, s) := s.spi_frequency clock o o._hz
    (o, { s with _owner := some id })
  else (o, s)

/-- The result of a function of an object. -/
def store (s : Spis ι) (id : ι) (r : SPI × Spis ι) : Spis ι :=
  { r.2 with object := Function.update s.object id (some r.1) }

/-- The constructor, for the peripheral that the pins belong to. -/
def construct (s : Spis ι) (id : ι) (spi : ℕ) (miso ssel : Bool) : Spis ι :=
  let o : SPI := ⟨spi, .spi_init miso ssel, 8, 0, 1000000⟩
  let s := s.init_spi o
  s.store id (s._acquire clock id o)

/-- The destructor does nothing, and `_owner` stays. -/
def destroy (s : Spis ι) (id : ι) : Spis ι :=
  { s with object := Function.update s.object id none }

def format (s : Spis ι) (id : ι) (o : SPI) (bits mode : ℤ) : Spis ι :=
  let o := { o with _bits := bits, _mode := mode }
  s.store id (if s._owner = some id then s.spi_format o o._bits o._mode else s._acquire clock id o)

def frequency (s : Spis ι) (id : ι) (o : SPI) (hz : ℤ) : Spis ι :=
  let o := { o with _hz := hz }
  s.store id (if s._owner = some id then s.spi_frequency clock o o._hz else s._acquire clock id o)

omit [DecidableEq ι] in
/-- `spi_master_write`: what goes out. -/
def spi_master_write (s : Spis ι) (o : SPI) (value : BitVec 32) : List Transfer :=
  match s.registers o.spi with
  | none => []
  | some i => [⟨o.spi, i, o.Init.data value⟩]

def write (s : Spis ι) (id : ι) (o : SPI) (value : BitVec 32) : List Transfer × Spis ι :=
  let (o, t) := s._acquire clock id o
  (t.spi_master_write o value, s.store id (o, t))

/-! ### Runs -/

/-- A call of a function of an object of class `SPI`. -/
inductive Call
  | construct (spi : ℕ) (miso ssel : Bool)
  | destroy
  | format (bits mode : ℤ)
  | frequency (hz : ℤ)
  | write (value : BitVec 32)
  deriving DecidableEq, Repr

def step (s : Spis ι) (e : ι × Call) : Spis ι :=
  match e.2, s.object e.1 with
  | .construct spi miso ssel, _ => s.construct clock e.1 spi miso ssel
  | .destroy, _ => s.destroy e.1
  | .format bits mode, some o => s.format clock e.1 o bits mode
  | .frequency hz, some o => s.frequency clock e.1 o hz
  | .write value, some o => (s.write clock e.1 o value).2
  | _, none => s

/-- What a call sends. -/
def transfers (s : Spis ι) (e : ι × Call) : List Transfer :=
  match e.2, s.object e.1 with
  | .write value, some o => (s.write clock e.1 o value).1
  | _, _ => []

/-- Before the first object. -/
def reset : Spis ι := ⟨fun _ => none, fun _ => none, none⟩

/-- The call puts no object where the owner stood. -/
def Fresh (s : Spis ι) : ι × Call → Prop
  | (id, .construct _ _ _) => s._owner ≠ some id
  | _ => True

instance (s : Spis ι) : ∀ e, Decidable (s.Fresh e)
  | (id, .construct _ _ _) => inferInstanceAs (Decidable (s._owner ≠ some id))
  | (_, .destroy) => inferInstanceAs (Decidable True)
  | (_, .format _ _) => inferInstanceAs (Decidable True)
  | (_, .frequency _) => inferInstanceAs (Decidable True)
  | (_, .write _) => inferInstanceAs (Decidable True)

end Spis

end NucleoMotor
