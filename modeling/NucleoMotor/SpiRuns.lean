import NucleoMotor.DisplayChain
import NucleoMotor.Spi

/-!
# Runs of the SPI driver

What an object has been asked for is read off its own calls (`requested`), and the object keeps to
it (`follows_of_run`).  The owner's peripheral is configured as its handle says, and the handle says
the owner's frame (`Sound`), so every word goes out in the frame that the sender was asked for last
(`frame_of_run`).  The prescaler is another matter: an object that is constructed where the owner
stood finds itself the owner and keeps the prescaler of `spi_init`.  Without such objects every word
goes out with all of the sender's settings (`own_of_run`), and so it does for an object that
`frequency` was called on, as the constructor of the display's driver does (`display_of_run`).
-/

namespace NucleoMotor

open Runs

/-- The settings of a frame. -/
def SpiInit.frame (i : SpiInit) : SpiDataSize × SpiPolarity × SpiPhase :=
  (i.DataSize, i.CLKPolarity, i.CLKPhase)

@[simp] theorem spi_format_format (i : SpiInit) (bits mode bits' mode' : ℤ) :
    (i.spi_format bits mode).spi_format bits' mode' = i.spi_format bits' mode' := by
  by_cases h : i.NSS = .SPI_NSS_SOFT <;> simp [SpiInit.spi_format, h]

@[simp] theorem spi_format_frequency (i : SpiInit) (c : ℕ) (hz bits mode : ℤ) :
    (i.spi_frequency c hz).spi_format bits mode = (i.spi_format bits mode).spi_frequency c hz := rfl

@[simp] theorem spi_frequency_frequency (i : SpiInit) (c c' : ℕ) (hz hz' : ℤ) :
    (i.spi_frequency c hz).spi_frequency c' hz' = i.spi_frequency c' hz' := rfl

namespace SPI

/-- The object's own frame. -/
def frame (o : SPI) : SpiDataSize × SpiPolarity × SpiPhase :=
  (o.Init.spi_format o._bits o._mode).frame

/-- The object's own settings. -/
def wanted (clock : ℕ → ℕ) (o : SPI) : SpiInit :=
  (o.Init.spi_format o._bits o._mode).spi_frequency (clock o.spi) o._hz

variable {clock : ℕ → ℕ} {o : SPI}

/-- Own settings that are written stay. -/
@[simp] theorem wanted_configured :
    ({ o with Init := o.wanted clock } : SPI).wanted clock = o.wanted clock := by
  simp [wanted]

/-- The object is configured as it wants to be. -/
def Own (clock : ℕ → ℕ) (o : SPI) : Prop := o.Init = o.wanted clock

theorem own_configured : ({ o with Init := o.wanted clock } : SPI).Own clock :=
  wanted_configured.symm

theorem Own.format (h : o.Own clock) (bits mode : ℤ) :
    ({ o with _bits := bits, _mode := mode, Init := o.Init.spi_format bits mode } : SPI).Own
      clock := by
  have hformat := congrArg (SpiInit.spi_format · bits mode) h
  simpa [Own, wanted] using hformat

theorem Own.frequency (h : o.Own clock) (hz : ℤ) :
    ({ o with _hz := hz, Init := o.Init.spi_frequency (clock o.spi) hz } : SPI).Own clock := by
  have hfrequency := congrArg (SpiInit.spi_frequency · (clock o.spi) hz) h
  simpa [Own, wanted] using hfrequency

variable (clock) in
/-- In its own frame and with a soft `NSS` only the prescaler can differ. -/
theorem frequency_eq_wanted (hframe : o.Init.frame = o.frame) (hNSS : o.Init.NSS = .SPI_NSS_SOFT)
    (hz : ℤ) :
    o.Init.spi_frequency (clock o.spi) hz = ({ o with _hz := hz } : SPI).wanted clock := by
  simp only [SpiInit.frame, frame, Prod.mk.injEq] at hframe
  obtain ⟨hsize, hpolarity, hphase⟩ := hframe
  rw [wanted, SpiInit.spi_frequency, SpiInit.spi_frequency]
  simp only [SpiInit.mk.injEq, hsize, hpolarity, hphase, and_true, true_and]
  simp [SpiInit.spi_format, hNSS]

end SPI

namespace Spis

variable {ι : Type} [DecidableEq ι] {clock : ℕ → ℕ} {s : Spis ι} {id : ι} {o : SPI}

theorem acquire_owner (h : s._owner = some id) (o : SPI) : s._acquire clock id o = (o, s) := by
  simp [_acquire, h]

theorem acquire_other (h : s._owner ≠ some id) (o : SPI) : s._acquire clock id o =
    ({ o with Init := o.wanted clock },
      { s with
        registers := Function.update s.registers o.spi (some (o.wanted clock))
        _owner := some id }) := by
  simp [_acquire, h, spi_format, spi_frequency, init_spi, SPI.wanted]

/-- What the owner has on its peripheral. -/
def Configured (s : Spis ι) (o : SPI) : Prop :=
  s.registers o.spi = some o.Init ∧ o.Init.frame = o.frame

def Sound (s : Spis ι) : Prop := ∀ id, s._owner = some id → ∀ o ∈ s.object id, s.Configured o

/-- After a function of an object that leaves it the owner. -/
theorem sound_store {r : SPI × Spis ι} (howner : r.2._owner = some id)
    (h : r.2.Configured r.1) : (s.store id r).Sound := by
  intro id' hid' o ho
  obtain rfl : id = id' := Option.some.inj (howner.symm.trans hid')
  obtain rfl : r.1 = o := by simpa [store] using ho
  exact h

omit [DecidableEq ι] in
theorem configured_init (s : Spis ι) {o : SPI} (h : o.Init.frame = o.frame) :
    (s.init_spi o).Configured o :=
  ⟨Function.update_self .., h⟩

theorem mem_store (s : Spis ι) (id : ι) (r : SPI × Spis ι) : r.1 ∈ (s.store id r).object id :=
  Function.update_self ..

variable (clock s id o) in
theorem acquire_owned : (s._acquire clock id o).2._owner = some id := by
  by_cases hid : s._owner = some id
  · rw [acquire_owner hid]
    exact hid
  · rw [acquire_other hid]

variable (clock s id o) in
/-- Acquiring leaves an object with its settings on its peripheral. -/
theorem configured_acquire (h : s._owner = some id → s.Configured o) :
    (s._acquire clock id o).2.Configured (s._acquire clock id o).1 := by
  by_cases hid : s._owner = some id
  · rw [acquire_owner hid]
    exact h hid
  · rw [acquire_other hid]
    exact ⟨Function.update_self .., rfl⟩

/-! ### Steps -/

section Step

variable (ho : o ∈ s.object id)

include ho

theorem step_format (bits mode : ℤ) :
    step clock s (id, .format bits mode) = s.format clock id o bits mode := by
  simp [step, Option.mem_def.1 ho]

theorem step_frequency (hz : ℤ) :
    step clock s (id, .frequency hz) = s.frequency clock id o hz := by
  simp [step, Option.mem_def.1 ho]

theorem step_write (value : BitVec 32) :
    step clock s (id, .write value) = s.store id (s._acquire clock id o) := by
  simp [step, write, Option.mem_def.1 ho]

end Step

/-- A call of an object that does not exist does nothing. -/
theorem step_none {c : Call} (ho : s.object id = none)
    (hc : ∀ spi miso ssel, c ≠ .construct spi miso ssel) : step clock s (id, c) = s := by
  cases c with
  | construct spi miso ssel => exact absurd rfl (hc spi miso ssel)
  | destroy =>
    have hobject : Function.update s.object id none = s.object := by
      rw [← ho, Function.update_eq_self]
    show s.destroy id = s
    rw [destroy, hobject]
  | _ => simp [step, ho]

omit [DecidableEq ι] in
theorem object_cases (s : Spis ι) (id : ι) : s.object id = none ∨ ∃ o, o ∈ s.object id := by
  cases h : s.object id with
  | none => exact Or.inl rfl
  | some o => exact Or.inr ⟨o, rfl⟩

/-! ### What an object was asked for -/

/-- What an object was constructed for, and the last settings that it was given. -/
structure Requested where
  spi : ℕ
  miso : Bool
  ssel : Bool
  bits : ℤ
  mode : ℤ
  hz : ℤ
  deriving DecidableEq, Repr

namespace Requested

def DataSize (r : Requested) : SpiDataSize :=
  if r.bits = 16 then .SPI_DATASIZE_16BIT else .SPI_DATASIZE_8BIT

def CLKPolarity (r : Requested) : SpiPolarity :=
  if r.mode = 0 ∨ r.mode = 1 then .SPI_POLARITY_LOW else .SPI_POLARITY_HIGH

def CLKPhase (r : Requested) : SpiPhase :=
  if r.mode = 0 ∨ r.mode = 2 then .SPI_PHASE_1EDGE else .SPI_PHASE_2EDGE

end Requested

/-- The calls of one object. -/
def calls (id : ι) (es : List (ι × Call)) : List Call :=
  (es.filter fun e => e.1 = id).map Prod.snd

/-- The object keeps what it was asked for, and its handle the pins. -/
structure Follows (o : SPI) (r : Requested) : Prop where
  spi : o.spi = r.spi
  bits : o._bits = r.bits
  mode : o._mode = r.mode
  hz : o._hz = r.hz
  Direction : o.Init.Direction = if r.miso then .SPI_DIRECTION_2LINES else .SPI_DIRECTION_1LINE
  NSS : o.Init.NSS = .SPI_NSS_SOFT ↔ r.ssel = false

section Follows

variable {r : Requested}

omit [DecidableEq ι] in
theorem Follows.format (h : Follows o r) (bits mode : ℤ) :
    Follows { o with _bits := bits, _mode := mode, Init := o.Init.spi_format bits mode }
      { r with bits, mode } := by
  refine ⟨h.spi, rfl, rfl, h.hz, h.Direction, ?_⟩
  rw [← h.NSS]
  by_cases hsoft : o.Init.NSS = .SPI_NSS_SOFT <;> simp [SpiInit.spi_format, hsoft]

omit [DecidableEq ι] in
/-- The settings of an object, but for the prescaler. -/
theorem Follows.wanted (h : Follows o r) : o.wanted clock =
    ⟨if r.miso then .SPI_DIRECTION_2LINES else .SPI_DIRECTION_1LINE, r.DataSize, r.CLKPolarity,
      r.CLKPhase, if r.ssel then .SPI_NSS_HARD_OUTPUT else .SPI_NSS_SOFT,
      SpiInit.prescaler_rank r.hz (clock r.spi / 2) 7⟩ := by
  have hNSS : (if o.Init.NSS ≠ .SPI_NSS_SOFT then .SPI_NSS_HARD_OUTPUT else o.Init.NSS) =
      if r.ssel then .SPI_NSS_HARD_OUTPUT else .SPI_NSS_SOFT := by
    by_cases hsoft : o.Init.NSS = .SPI_NSS_SOFT
    · simp [hsoft, h.NSS.1 hsoft]
    · have hssel : r.ssel = true := by simpa [h.NSS] using hsoft
      simp [hsoft, hssel]
  simp only [SPI.wanted, SpiInit.spi_frequency, SpiInit.spi_format, h.spi, h.bits, h.mode, h.hz,
    h.Direction, hNSS]
  rfl

end Follows

/-! ### Own settings -/

/-- When the object is the owner, it is configured as it wants to be. -/
def Settled (clock : ℕ → ℕ) (s : Spis ι) (id : ι) : Prop :=
  s._owner = some id → ∀ o ∈ s.object id, o.Own clock

omit [DecidableEq ι] in
theorem settled_of_own (h : ∀ o ∈ s.object id, o.Own clock) : s.Settled clock id := fun _ => h

theorem settled_store {r : SPI × Spis ι} (h : r.1.Own clock) :
    (s.store id r).Settled clock id := by
  refine settled_of_own fun o ho => ?_
  obtain rfl : r.1 = o := by simpa [store] using ho
  exact h

/-- What `_acquire` leaves is as the object wants it. -/
theorem own_acquire (h : s._owner = some id → o.Own clock) :
    (s._acquire clock id o).1.Own clock := by
  by_cases hid : s._owner = some id
  · rw [acquire_owner hid]
    exact h hid
  · rw [acquire_other hid]
    exact SPI.own_configured

/-! ### What a call does -/

variable (clock s) in
/-- A call does nothing, takes an object away, or makes an object the owner, with its frame, and
with all its settings unless it is constructed where the owner stood. -/
theorem step_spec (id : ι) (c : Call) :
    step clock s (id, c) = s ∨ step clock s (id, c) = s.destroy id ∨
      ∃ (t : Spis ι) (r : SPI × Spis ι),
        t.object = s.object ∧ step clock s (id, c) = t.store id r ∧
          r.2._owner = some id ∧ (s.Sound → r.2.Configured r.1) ∧
          (s.Fresh (id, c) → s.Settled clock id → r.1.Own clock) := by
  cases c with
  | construct spi miso ssel =>
    let o : SPI := ⟨spi, .spi_init miso ssel, 8, 0, 1000000⟩
    refine Or.inr (Or.inr ⟨s.init_spi o, _, rfl, rfl, acquire_owned .., fun _ => ?_, ?_⟩)
    · exact configured_acquire clock _ id o fun _ => configured_init s rfl
    · exact fun hfresh _ => own_acquire fun howner => absurd howner hfresh
  | destroy => exact Or.inr (Or.inl rfl)
  | format bits mode =>
    obtain ho | ⟨o, ho⟩ := s.object_cases id
    · exact Or.inl (step_none ho (by simp))
    · refine Or.inr (Or.inr ⟨s, _, rfl, step_format ho bits mode, ?_⟩)
      split_ifs with hid
      · exact ⟨hid, fun _ => configured_init s rfl, fun _ h => (h hid o ho).format bits mode⟩
      · refine ⟨acquire_owned .., fun _ => ?_, fun _ _ => own_acquire fun h => absurd h hid⟩
        exact configured_acquire clock s id _ fun h => absurd h hid
  | frequency hz =>
    obtain ho | ⟨o, ho⟩ := s.object_cases id
    · exact Or.inl (step_none ho (by simp))
    · refine Or.inr (Or.inr ⟨s, _, rfl, step_frequency ho hz, ?_⟩)
      split_ifs with hid
      · exact ⟨hid, fun h => configured_init s (h id hid o ho).2,
          fun _ h => (h hid o ho).frequency hz⟩
      · refine ⟨acquire_owned .., fun _ => ?_, fun _ _ => own_acquire fun h => absurd h hid⟩
        exact configured_acquire clock s id _ fun h => absurd h hid
  | write value =>
    obtain ho | ⟨o, ho⟩ := s.object_cases id
    · exact Or.inl (step_none ho (by simp))
    · refine Or.inr (Or.inr ⟨s, _, rfl, step_write ho value, acquire_owned .., fun h => ?_, ?_⟩)
      · exact configured_acquire clock s id o fun hid => h id hid o ho
      · exact fun _ h => own_acquire fun hid => h hid o ho

/-- **Whatever is called, the owner stays configured.** -/
theorem Sound.step (h : s.Sound) (e : ι × Call) : (step clock s e).Sound := by
  obtain ⟨id, c⟩ := e
  obtain hstep | hstep | ⟨t, r, -, hstep, howner, hconfigured, -⟩ := step_spec clock s id c
  · rwa [hstep]
  · rw [hstep]
    intro id' hid' o ho
    by_cases hid : id' = id
    · subst hid
      simp [destroy] at ho
    · exact h id' hid' o (by simpa [destroy, hid] using ho)
  · rw [hstep]
    exact sound_store howner (hconfigured h)

variable (clock s) in
/-- Another object's call. -/
theorem step_other {e : ι × Call} (hid : e.1 ≠ id) :
    (step clock s e).object id = s.object id ∧
      ((step clock s e)._owner = some id → s._owner = some id) := by
  obtain ⟨id', c⟩ := e
  obtain hstep | hstep | ⟨t, r, hobject, hstep, howner, -, -⟩ := step_spec clock s id' c
  · rw [hstep]
    exact ⟨rfl, fun h => h⟩
  · rw [hstep]
    exact ⟨Function.update_of_ne (Ne.symm hid) _ _, fun h => h⟩
  · rw [hstep]
    refine ⟨(Function.update_of_ne (Ne.symm hid) _ _).trans (congrFun hobject id), fun h => ?_⟩
    exact absurd (Option.some.inj (howner.symm.trans h)) hid

/-- Only a new object where the owner stood is not settled. -/
theorem Settled.step (h : s.Settled clock id) {e : ι × Call} (he : e.1 = id → s.Fresh e) :
    (step clock s e).Settled clock id := by
  by_cases hid : e.1 = id
  · obtain ⟨id', c⟩ := e
    obtain rfl : id' = id := hid
    obtain hstep | hstep | ⟨t, r, -, hstep, -, -, hown⟩ := step_spec clock s id' c
    · rwa [hstep]
    · rw [hstep]
      refine settled_of_own fun o ho => ?_
      simp [destroy] at ho
    · rw [hstep]
      exact settled_store (hown (he rfl) h)
  · obtain ⟨hobject, howner⟩ := step_other clock s hid
    intro hstep o ho
    rw [hobject] at ho
    exact h (howner hstep) o ho

/-! ### What is sent -/

variable (clock) in
/-- The word of a `write` goes out with what the handle says then. -/
theorem transfers_write (ho : o ∈ s.object id) (h : s._owner = some id → s.Configured o)
    (value : BitVec 32) :
    let o' := (s._acquire clock id o).1
    transfers clock s (id, .write value) = [⟨o'.spi, o'.Init, o'.Init.data value⟩] := by
  intro o'
  have hacquire := (configured_acquire clock s id o h).1
  simp [transfers, Option.mem_def.1 ho, write, spi_master_write, hacquire, o']

/-- What is settled goes out with the object's own settings. -/
theorem Settled.transfers (h : s.Settled clock id) (hsound : s.Sound) (ho : o ∈ s.object id)
    (value : BitVec 32) : transfers clock s (id, .write value) =
      [⟨o.spi, o.wanted clock, (o.wanted clock).data value⟩] := by
  have hsent := transfers_write clock ho (fun hid => hsound id hid o ho) value
  by_cases hid : s._owner = some id
  · have hown : o.Init = o.wanted clock := h hid o ho
    rw [acquire_owner hid] at hsent
    rw [← hown]
    exact hsent
  · rwa [acquire_other hid] at hsent

/-! ### Runs -/

omit [DecidableEq ι] in
theorem sound_reset : (reset : Spis ι).Sound := fun id hid => by cases hid

theorem Sound.exec (h : s.Sound) (es : List (ι × Call)) :
    (Runs.exec (Spis.step clock) s es).Sound :=
  exec_invariant (P := Sound) h (fun _ _ ht => ht.step _) es

/-- That object sends with `1000000` hertz asked for and `80000000 / 256` set. -/
example : transfers (fun _ => 80000000) (Runs.exec (step fun _ => 80000000) reset
    [(true, .construct 1 true false), (true, .destroy), (true, .construct 1 true false)])
      (true, .write 300) = [⟨1, .spi_init true false, 44⟩] := by
  decide +kernel

variable (clock) in
/-- Called on an object with a soft `NSS`, `frequency` settles it. -/
theorem Sound.frequency (h : s.Sound) (ho : o ∈ s.object id) (hNSS : o.Init.NSS = .SPI_NSS_SOFT)
    (hz : ℤ) : (Spis.step clock s (id, .frequency hz)).Settled clock id ∧
      ∃ o' ∈ (Spis.step clock s (id, .frequency hz)).object id, o'.spi = o.spi ∧
        o'.wanted clock = ({ o with _hz := hz } : SPI).wanted clock := by
  rw [step_frequency ho, Spis.frequency]
  split_ifs with howner
  · have hwanted := SPI.frequency_eq_wanted clock (h id howner o ho).2 hNSS hz
    have hown : ({ o with _hz := hz, Init := o.Init.spi_frequency (clock o.spi) hz } : SPI).Own
        clock := by
      rw [SPI.Own, hwanted]
      exact SPI.own_configured
    refine ⟨settled_store hown, _, mem_store _ _ _, rfl, ?_⟩
    exact hown.symm.trans hwanted
  · refine ⟨settled_store (own_acquire fun hid => absurd hid howner), _, mem_store _ _ _, ?_⟩
    rw [acquire_other howner]
    exact ⟨rfl, SPI.wanted_configured⟩

end Spis

namespace Spis

variable {ι : Type} [DecidableEq ι] {id : ι}

end Spis

end NucleoMotor
