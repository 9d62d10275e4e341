import NucleoMotor.EncodedMotor
import NucleoMotor.GpioRuns

/-!
# The encoder on its pins

The two `InterruptIn` of an encoder among the other ones of the program.  What they do is what the
encoder's model says of signals (`encoder_of_run`): an edge counts when its interrupt is served and
its direction, as the pin shows it then, is attached.

So every edge to be counted is a pulse, was merged with another one of its pin, was taken for an
edge in the other direction, or waits (`pulses_of_run`).
-/

namespace NucleoMotor

open Runs

/-- The pins of an encoder. -/
inductive EncoderPin
  | A
  | B
  deriving DecidableEq, Repr

/-- The edge of a pin to the level. -/
def EncoderPin.edge : EncoderPin → Bool → Edge
  | .A, true => .ARise
  | .A, false => .AFall
  | .B, true => .BRise
  | .B, false => .BFall

/-- The functions of the program: those of the encoder, and others. -/
inductive EncoderFunc (β : Type)
  | incrementPulse
  | saveData (currentTime : ℕ)
  | other (func : β)
  deriving DecidableEq, Repr

def Attached.set (a : Attached) : Edge → Bool → Attached
  | .ARise, on => { a with ARise := on }
  | .AFall, on => { a with AFall := on }
  | .BRise, on => { a with BRise := on }
  | .BFall, on => { a with BFall := on }

namespace EncodedMotor

variable {α : Type} [Arith α]

/-- What the encoder sees: an edge, a sample, and an edge attached or detached. -/
inductive PinEvent
  | edge (edge : Edge)
  | saveData (currentTime : ℕ)
  | attach (edge : Edge) (on : Bool)
  deriving DecidableEq, Repr

def pinEvent (e : EncodedMotor α) : PinEvent → EncodedMotor α
  | .edge edge => e.signal (.edge edge)
  | .saveData currentTime => e.saveData currentTime
  | .attach edge on => { e with encoderInterrupt := e.encoderInterrupt.set edge on }

/-- What the program's functions do. -/
def code {β γ : Type} (others : β → γ → γ) : EncoderFunc β → EncodedMotor α × γ → EncodedMotor α × γ
  | .incrementPulse, (e, w) => (e.incrementPulse, w)
  | .saveData currentTime, (e, w) => (e.saveData currentTime, w)
  | .other func, (e, w) => (e, others func w)

/-- The calls by which the constructor attaches the encoder's edges, and `Stop` detaches them. -/
def attachCalls {ι β : Type} (ids : EncoderPin → ι) (on : Bool) (encodeType : EncodeType) :
    List (Interrupts.Occurrence ι (EncoderFunc β)) :=
  let func := if on then some .incrementPulse else none
  match encodeType with
  | .X1 => [.call (ids .A) (.rise func)]
  | .X2 => [.call (ids .A) (.rise func), .call (ids .A) (.fall func)]
  | .X4 => [.call (ids .A) (.rise func), .call (ids .A) (.fall func), .call (ids .B) (.rise func),
      .call (ids .B) (.fall func)]

end EncodedMotor

@[simp] theorem calls_set (a : Attached) (g g' : Edge) (on : Bool) :
    (a.set g on).calls g' = if g' = g then on else a.calls g' := by
  cases g <;> cases g' <;> rfl

theorem edge_inj {c c' : EncoderPin} {level level' : Bool} :
    c.edge level = c'.edge level' ↔ c = c' ∧ level = level' := by
  cases c <;> cases c' <;> cases level <;> cases level' <;> decide

theorem attached_ext {a a' : Attached} (h : ∀ (c : EncoderPin) level,
    a.calls (c.edge level) = a'.calls (c.edge level)) : a = a' :=
  Attached.ext (h .A true) (h .A false) (h .B true) (h .B false)

/-- The pin of which something is `x`. -/
def EncoderPin.find {τ : Type} [DecidableEq τ] (f : EncoderPin → τ) (x : τ) : Option EncoderPin :=
  if x = f .A then some .A else if x = f .B then some .B else none

theorem find_self {τ : Type} [DecidableEq τ] {f : EncoderPin → τ} (hf : Function.Injective f)
    (c : EncoderPin) : EncoderPin.find f (f c) = some c := by
  cases c with
  | A => simp [EncoderPin.find]
  | B =>
    have hne : f .B ≠ f .A := fun h => EncoderPin.noConfusion (hf h)
    simp [EncoderPin.find, hne]

theorem find_none {τ : Type} [DecidableEq τ] {f : EncoderPin → τ} {x : τ} (h : ∀ c, x ≠ f c) :
    EncoderPin.find f x = none := by
  simp [EncoderPin.find, h]

theorem eq_of_find {τ : Type} [DecidableEq τ] {f : EncoderPin → τ} {x : τ} {c : EncoderPin}
    (h : EncoderPin.find f x = some c) : x = f c := by
  unfold EncoderPin.find at h
  split_ifs at h with hA hB
  · cases h
    exact hA
  · cases h
    exact hB

/-! ### The encoder among the interrupts -/

namespace Interrupts

variable {ι α β γ : Type} [DecidableEq ι] [Arith α]

/-- The object has a callback for edges to the level. -/
def has {β γ : Type} (s : Interrupts ι β γ) (id : ι) (level : Bool) : Bool :=
  (s.interruptIn id).any fun o => (o.callback level).isSome

/-- The function may be a callback of the object. -/
def Belongs (ids : EncoderPin → ι) (id : ι) : EncoderFunc β → Prop
  | .incrementPulse => id = ids .A ∨ id = ids .B
  | .saveData _ => False
  | .other _ => id ≠ ids .A ∧ id ≠ ids .B

def Suited (ids : EncoderPin → ι) {γ : Type} (s : Interrupts ι (EncoderFunc β) γ) : Prop :=
  ∀ id, ∀ o ∈ s.interruptIn id, ∀ level, ∀ func ∈ o.callback level, Belongs ids id func

section Encoder

variable (ids : EncoderPin → ι) (pins : EncoderPin → PinName)
  (s : Interrupts ι (EncoderFunc β) (EncodedMotor α × γ))

def attached : Attached :=
  ⟨s.has (ids .A) true, s.has (ids .A) false, s.has (ids .B) true, s.has (ids .B) false⟩

/-- The encoder, of which the objects of its pins are a part. -/
def encoder : EncodedMotor α := { s.world.1 with encoderInterrupt := s.attached ids }

/-- What the encoder sees of an occurrence. -/
def shown : Occurrence ι (EncoderFunc β) → List EncodedMotor.PinEvent
  | .interrupt irq_index during =>
    match (s.next irq_index).bind (EncoderPin.find fun c => (pins c).pin) with
    | none => []
    | some c =>
      let x := exec Exti.edge (s.exti.clearFlag (pins c).pin) during
      [.edge (c.edge (x.IDR (pins c)))]
  | .call id (.rise func) =>
    match EncoderPin.find ids id with
    | none => []
    | some c => [.attach (c.edge true) func.isSome]
  | .call id (.fall func) =>
    match EncoderPin.find ids id with
    | none => []
    | some c => [.attach (c.edge false) func.isSome]
  | .act (.saveData currentTime) => [.saveData currentTime]
  | _ => []

/-- The encoder's objects are on its pins, and each callback on an object of its own. -/
structure Connected : Prop where
  sound : s.Sound
  ids_inj : Function.Injective ids
  pin : ∀ c, ∃ o ∈ s.interruptIn (ids c), o.gpio_irq.pin = pins c ∧
    s.exti.config (pins c).pin = ((pins c).port, true, o._rise.isSome, o._fall.isSome)
  suited : s.Suited ids

end Encoder

/-- The objects of the encoder are used by the encoder only, which does no more than attach and
detach its callback. -/
def Allowed (ids : EncoderPin → ι) : Occurrence ι (EncoderFunc β) → Prop
  | .call id (.rise func) => ∀ f ∈ func, Belongs ids id f
  | .call id (.fall func) => ∀ f ∈ func, Belongs ids id f
  | .call id _ => id ≠ ids .A ∧ id ≠ ids .B
  | .act func => match func with
    | .incrementPulse => False
    | _ => True
  | _ => True

instance (ids : EncoderPin → ι) (id : ι) :
    ∀ func : EncoderFunc β, Decidable (Belongs ids id func)
  | .incrementPulse => inferInstanceAs (Decidable (id = ids .A ∨ id = ids .B))
  | .saveData _ => inferInstanceAs (Decidable False)
  | .other _ => inferInstanceAs (Decidable (id ≠ ids .A ∧ id ≠ ids .B))

instance (ids : EncoderPin → ι) :
    ∀ e : Occurrence ι (EncoderFunc β), Decidable (Allowed ids e)
  | .edge _ => inferInstanceAs (Decidable True)
  | .interrupt _ _ => inferInstanceAs (Decidable True)
  | .call id (.rise func) => inferInstanceAs (Decidable (∀ f ∈ func, Belongs ids id f))
  | .call id (.fall func) => inferInstanceAs (Decidable (∀ f ∈ func, Belongs ids id f))
  | .call id (.construct _) => inferInstanceAs (Decidable (id ≠ ids .A ∧ id ≠ ids .B))
  | .call id .destroy => inferInstanceAs (Decidable (id ≠ ids .A ∧ id ≠ ids .B))
  | .call id .enable_irq => inferInstanceAs (Decidable (id ≠ ids .A ∧ id ≠ ids .B))
  | .call id .disable_irq => inferInstanceAs (Decidable (id ≠ ids .A ∧ id ≠ ids .B))
  | .act .incrementPulse => inferInstanceAs (Decidable False)
  | .act (.saveData _) => inferInstanceAs (Decidable True)
  | .act (.other _) => inferInstanceAs (Decidable True)

variable {ids : EncoderPin → ι} {pins : EncoderPin → PinName}
  {s : Interrupts ι (EncoderFunc β) (EncodedMotor α × γ)}

omit [DecidableEq ι] [Arith α] in
theorem calls_attached (c : EncoderPin) (level : Bool) :
    (s.attached ids).calls (c.edge level) = s.has (ids c) level := by
  cases c <;> cases level <;> rfl

omit [DecidableEq ι] in
theorem has_eq {β γ : Type} {s : Interrupts ι β γ} {id : ι} {o : InterruptIn β}
    (ho : o ∈ s.interruptIn id) (level : Bool) : s.has id level = (o.callback level).isSome := by
  rw [has, Option.mem_def.1 ho]
  rfl

omit [DecidableEq ι] [Arith α] in
theorem Connected.line_eq (h : s.Connected ids pins) {c : EncoderPin} {id : ι}
    {o : InterruptIn (EncoderFunc β)} (ho : o ∈ s.interruptIn id)
    (hline : o.gpio_irq.pin.pin = (pins c).pin) : id = ids c := by
  obtain ⟨o', ho', hpin, -⟩ := h.pin c
  exact h.sound.id_eq ho ho' (by rw [hline, hpin])

omit [DecidableEq ι] [Arith α] in
theorem Connected.lines_inj (h : s.Connected ids pins) :
    Function.Injective fun c => (pins c).pin := by
  intro c c' hline
  obtain ⟨o, ho, hpin, -⟩ := h.pin c
  exact h.ids_inj (h.line_eq ho (by rw [hpin]; exact hline))

omit [DecidableEq ι] in
theorem not_another (c : EncoderPin) : ¬ (ids c ≠ ids .A ∧ ids c ≠ ids .B) := by
  cases c <;> simp

omit [DecidableEq ι] in
theorem belongs_own {c : EncoderPin} {func : EncoderFunc β} (h : Belongs ids (ids c) func) :
    func = .incrementPulse := by
  cases func with
  | incrementPulse => rfl
  | saveData currentTime => cases h
  | other f => exact absurd h (not_another c)

omit [DecidableEq ι] in
theorem belongs_other {id : ι} {func : EncoderFunc β} (h : Belongs ids id func)
    (hid : ∀ c, id ≠ ids c) : ∃ f, func = .other f := by
  cases func with
  | incrementPulse => exact (h.elim (hid .A) (hid .B)).elim
  | saveData currentTime => cases h
  | other f => exact ⟨f, rfl⟩

variable {others : β → γ → γ}

omit [DecidableEq ι] in
theorem belongs_of_allowed {id : ι} {c : Call (EncoderFunc β)} (h : Allowed ids (.call id c))
    {func : EncoderFunc β} (hc : c = .rise (some func) ∨ c = .fall (some func)) :
    Belongs ids id func := by
  rcases hc with rfl | rfl <;> exact h func rfl

/-- A call keeps every callback where it belongs. -/
theorem Suited.call {γ : Type} {s : Interrupts ι (EncoderFunc β) γ} (h : s.Suited ids) {id : ι}
    {c : Call (EncoderFunc β)}
    (hc : ∀ func, c = .rise (some func) ∨ c = .fall (some func) → Belongs ids id func) :
    (s.call id c).Suited ids := by
  intro id' o ho level func hfunc
  by_cases hid : id' = id
  · subst hid
    rcases call_callback ho hfunc with ⟨o, ho, hfunc⟩ | hnew
    · exact h id' o ho level func hfunc
    · exact hc func hnew
  · rw [call_interruptIn s hid c] at ho
    exact h id' o ho level func hfunc

omit [Arith α] in
theorem Connected.call (h : s.Connected ids pins) {id : ι} {c : Call (EncoderFunc β)}
    (hc : s.Proper (.call id c)) (hallowed : Allowed ids (.call id c)) :
    (s.call id c).Connected ids pins := by
  refine ⟨h.sound.call id hc, h.ids_inj, fun c' => ?_,
    h.suited.call fun _ => belongs_of_allowed hallowed⟩
  obtain ⟨o, ho, hpin, hconfig⟩ := h.pin c'
  by_cases hid : ids c' = id
  · subst hid
    simp only [Exti.config, Prod.mk.injEq] at hconfig
    obtain ⟨hport, himr, hrise, hfall⟩ := hconfig
    cases c with
    | rise func =>
      rw [Interrupts.call, Interrupts.rise, modify_eq ho]
      refine ⟨_, mem_update.2 (Or.inl ⟨rfl, rfl⟩), hpin, ?_⟩
      simp [GpioIrq.gpio_irq_set, Exti.config, hpin, hport, himr, hfall]
    | fall func =>
      rw [Interrupts.call, Interrupts.fall, modify_eq ho]
      refine ⟨_, mem_update.2 (Or.inl ⟨rfl, rfl⟩), hpin, ?_⟩
      simp [GpioIrq.gpio_irq_set, Exti.config, hpin, hport, himr, hrise]
    | _ => exact absurd hallowed (not_another c')
  · rw [call_interruptIn s hid c, ← hpin, h.sound.call_config hc ho hid, hpin]
    exact ⟨o, ho, hpin, hconfig⟩

/-- **Whatever takes place, the encoder's pins stay connected.** -/
theorem Connected.step (h : s.Connected ids pins) {e : Occurrence ι (EncoderFunc β)}
    (he : s.Proper e) (hallowed : Allowed ids e) :
    (Interrupts.step (EncodedMotor.code others) s e).Connected ids pins := by
  have hframe : ∀ {x : Exti} {w : EncodedMotor α × γ}, x.config = s.exti.config →
      ({ s with exti := x, world := w } : Interrupts _ _ _).Connected ids pins := by
    intro x w hconfig
    refine ⟨h.sound.exti x hconfig w, h.ids_inj, fun c => ?_, h.suited⟩
    obtain ⟨o, ho, hpin, hold⟩ := h.pin c
    exact ⟨o, ho, hpin, (congrFun hconfig _).trans hold⟩
  rw [step_eq h.sound.error]
  cases e with
  | edge pin => exact hframe rfl
  | interrupt irq_index during =>
    obtain ⟨id, o, -, -, -, hserve⟩ := h.sound.interrupt_spec he (EncodedMotor.code others) during
    show (s.handle_interrupt_in _ during irq_index).Connected ids pins
    rw [hserve]
    exact hframe (Exti.config_exec_edge _ _)
  | call id c => exact h.call he hallowed
  | act func => exact hframe rfl

/-- The callbacks of an object after it was given one. -/
theorem has_call {β γ : Type} {s : Interrupts ι β γ} {id : ι} {o : InterruptIn β}
    (ho : o ∈ s.interruptIn id) (func : Option β) (id' : ι) (level : Bool) :
    ((s.call id (.rise func)).has id' level =
        if id' = id ∧ level = true then func.isSome else s.has id' level) ∧
      ((s.call id (.fall func)).has id' level =
        if id' = id ∧ level = false then func.isSome else s.has id' level) := by
  by_cases hid : id' = id
  · subst hid
    simp only [has, Interrupts.call, Interrupts.rise, Interrupts.fall, modify_eq ho,
      Function.update_self, Option.mem_def.1 ho]
    cases level <;> simp [InterruptIn.callback]
  · simp [has, call_interruptIn s hid, hid]

omit [Arith α] in
theorem attached_call {c : EncoderPin} {o : InterruptIn (EncoderFunc β)}
    (hids : Function.Injective ids) (ho : o ∈ s.interruptIn (ids c))
    (func : Option (EncoderFunc β)) :
    (s.call (ids c) (.rise func)).attached ids = (s.attached ids).set (c.edge true) func.isSome ∧
      (s.call (ids c) (.fall func)).attached ids =
        (s.attached ids).set (c.edge false) func.isSome := by
  constructor <;> refine attached_ext fun c' level => ?_
  · rw [calls_attached, calls_set, calls_attached, (has_call ho func _ level).1]
    simp [edge_inj, hids.eq_iff]
  · rw [calls_attached, calls_set, calls_attached, (has_call ho func _ level).2]
    simp [edge_inj, hids.eq_iff]

omit [Arith α] in
/-- The encoder without the objects of its pins. -/
theorem encoder_call (id : ι) (c : Call (EncoderFunc β)) : (s.call id c).encoder ids =
    { s.encoder ids with encoderInterrupt := (s.call id c).attached ids } := by
  have hworld : (s.call id c).world = s.world := (call_frame s id c).2
  simp [encoder, hworld]

/-- **What the encoder sees is what happens to it.** -/
theorem Connected.encoder_step (h : s.Connected ids pins) {e : Occurrence ι (EncoderFunc β)}
    (he : s.Proper e) (hallowed : Allowed ids e) :
    (Interrupts.step (EncodedMotor.code others) s e).encoder ids =
      exec EncodedMotor.pinEvent (s.encoder ids) (s.shown ids pins e) := by
  rw [step_eq h.sound.error]
  cases e with
  | edge pin => rfl
  | interrupt irq_index during =>
    obtain ⟨id, o, ho, hnext, -, hserve⟩ :=
      h.sound.interrupt_spec he (EncodedMotor.code others) during
    show (s.handle_interrupt_in _ during irq_index).encoder ids = _
    rw [hserve]
    by_cases hid : ∃ c, id = ids c
    · obtain ⟨c, rfl⟩ := hid
      obtain ⟨o', ho', hpin, -⟩ := h.pin c
      obtain rfl := Option.mem_unique ho ho'
      have hfind := find_self h.lines_inj c
      simp only [shown, hnext, Option.bind_some, hpin, hfind, exec_cons, exec_nil,
        EncodedMotor.pinEvent, EncodedMotor.signal, serve]
      generalize (exec Exti.edge (s.exti.clearFlag (pins c).pin) during).IDR (pins c) = level
      have hcalls : (s.encoder ids).encoderInterrupt.calls (c.edge level) =
          (o.callback level).isSome := (calls_attached c level).trans (has_eq ho level)
      rw [hcalls]
      cases hfunc : o.callback level with
      | none => rfl
      | some func =>
        obtain rfl := belongs_own (h.suited _ o ho level func hfunc)
        rfl
    · have hline : ∀ c, o.gpio_irq.pin.pin ≠ (pins c).pin := fun c hline =>
        hid ⟨c, h.line_eq ho hline⟩
      have hfind := find_none hline
      simp only [shown, hnext, Option.bind_some, hfind, exec_nil, serve]
      generalize (exec Exti.edge (s.exti.clearFlag o.gpio_irq.pin.pin) during).IDR _ = level
      cases hfunc : o.callback level with
      | none => rfl
      | some func =>
        obtain ⟨f, rfl⟩ := belongs_other (h.suited id o ho level func hfunc) fun c hc => hid ⟨c, hc⟩
        rfl
  | call id c =>
    show (s.call id c).encoder ids = _
    rw [encoder_call]
    by_cases hid : ∃ c, id = ids c
    · obtain ⟨c', rfl⟩ := hid
      obtain ⟨o, ho, -⟩ := h.pin c'
      have hfind := find_self h.ids_inj c'
      cases c with
      | rise func =>
        rw [(attached_call h.ids_inj ho func).1]
        simp [shown, hfind, EncodedMotor.pinEvent, encoder]
      | fall func =>
        rw [(attached_call h.ids_inj ho func).2]
        simp [shown, hfind, EncodedMotor.pinEvent, encoder]
      | _ => exact absurd hallowed (not_another c')
    · have hid' : ∀ c, id ≠ ids c := fun c hc => hid ⟨c, hc⟩
      have hattached : (s.call id c).attached ids = s.attached ids := by
        simp [attached, has, call_interruptIn s (hid' _).symm c]
      have hshown : s.shown ids pins (.call id c) = [] := by
        have hfind := find_none hid'
        cases c <;> simp [shown, hfind]
      rw [hattached, hshown]
      rfl
  | act func => cases func <;> first | rfl | cases hallowed

/-! ### Pulses -/

/-- The pin's next edge is one of the encoder's with a callback. -/
def wantedEdge (pins : EncoderPin → PinName) (a : Attached) (x : Exti) (p : PinName) : ℕ :=
  match EncoderPin.find pins p with
  | none => 0
  | some c => if a.calls (c.edge (!x.IDR p)) then 1 else 0

section Counts

variable (ids : EncoderPin → ι) (pins : EncoderPin → PinName)
  (s : Interrupts ι (EncoderFunc β) (EncodedMotor α × γ)) (e : Occurrence ι (EncoderFunc β))

/-- The edges of the encoder's pins that have a callback. -/
def wanted : ℕ :=
  match e with
  | .edge p => wantedEdge pins (s.attached ids) s.exti p
  | .interrupt irq_index during =>
    match s.next irq_index with
    | none => 0
    | some line =>
      total Exti.edge (wantedEdge pins (s.attached ids)) (s.exti.clearFlag line) during
  | _ => 0

/-- The edges that the encoder sees and has a callback for. -/
def pulses : ℕ := (s.shown ids pins e).countP fun v =>
  match v with
  | .edge g => (s.attached ids).calls g
  | _ => false

/-- The edges that the encoder sees and has no callback for. -/
def missed : ℕ := (s.shown ids pins e).countP fun v =>
  match v with
  | .edge g => !(s.attached ids).calls g
  | _ => false

/-- The pulses that a sample takes out of the buffer. -/
def sampled : ℕ :=
  match e with
  | .act (.saveData _) => (s.encoder ids).pulseBuffer
  | _ => 0

/-- The flags of the encoder's lines that are raised. -/
def waiting : ℕ := (s.exti.PR (pins .A).pin).toNat + (s.exti.PR (pins .B).pin).toNat

/-- The edges that find the flag of an encoder's line raised. -/
def merged (f : Fin 16 → Bool) (fs : List (Flags.Event (Fin 16))) : ℕ :=
  count Flags.step (Flags.Merges (pins .A).pin) f fs +
    count Flags.step (Flags.Merges (pins .B).pin) f fs

end Counts

/-- The line of an encoder's pin latches the edges that have a callback. -/
theorem count_raised {a : Attached} {x : Exti} {c : EncoderPin}
    (h : x.config (pins c).pin =
      ((pins c).port, true, a.calls (c.edge true), a.calls (c.edge false))) (p : PinName) :
    (x.raised p).count (.raise (pins c).pin) =
      if p = pins c ∧ a.calls (c.edge (!x.IDR p)) = true then 1 else 0 := by
  simp only [Exti.config, Prod.mk.injEq] at h
  obtain ⟨hport, -, hrise, hfall⟩ := h
  by_cases hp : p = pins c
  · subst hp
    cases hlevel : x.IDR (pins c) <;>
      simp only [Exti.raised, Exti.latches, hport, hrise, hfall, hlevel] <;>
      split_ifs <;> simp_all
  · have hzero : (x.raised p).count (.raise (pins c).pin) = 0 := by
      refine List.count_eq_zero.2 fun hmem => hp ?_
      unfold Exti.raised at hmem
      split_ifs at hmem with hlatch
      · obtain hpin : (pins c).pin = p.pin := by simpa using hmem
        have hport' : x.EXTICR p.pin = p.port := by simpa using (Bool.and_eq_true_iff.1 hlatch).1
        rw [← hpin, hport] at hport'
        cases p
        cases hc : pins c
        simp_all
      · cases hmem
    rw [hzero, if_neg fun hc => hp hc.1]

/-- On both lines together. -/
theorem count_raised_add {a : Attached} {x : Exti}
    (h : ∀ c, x.config (pins c).pin =
      ((pins c).port, true, a.calls (c.edge true), a.calls (c.edge false)))
    (hne : pins .A ≠ pins .B) (p : PinName) :
    (x.raised p).count (.raise (pins .A).pin) + (x.raised p).count (.raise (pins .B).pin) =
      wantedEdge pins a x p := by
  rw [count_raised (h .A), count_raised (h .B)]
  unfold wantedEdge EncoderPin.find
  by_cases hA : p = pins .A
  · subst hA
    simp [hne]
  · by_cases hB : p = pins .B <;> simp [hA, hB, hne.symm]

/-- Edges leave alone what selects the edges. -/
theorem total_edges {x : Exti} {during : List PinName} {m m' : Exti → PinName → ℕ}
    (h : ∀ x' : Exti, x'.config = x.config → ∀ p, m x' p = m' x' p) :
    total Exti.edge m x during = total Exti.edge m' x during :=
  (allSteps_true _ during).total_congr (P := fun x' => x'.config = x.config) rfl
    (fun x' p hx _ => (rfl : (x'.edge p).config = x'.config).trans hx) fun x' p hx _ => h x' hx p

theorem count_serve_raised (x : Exti) (ps : List PinName) (line : Fin 16) :
    (image Exti.edge Exti.raised x ps).count (.serve line) = 0 := by
  induction ps generalizing x with
  | nil => rfl
  | cons p ps ih =>
    rw [image, List.count_append, ih]
    unfold Exti.raised
    split_ifs <;> simp

omit [DecidableEq ι] [Arith α] in
theorem Connected.config (h : s.Connected ids pins) (c : EncoderPin) :
    s.exti.config (pins c).pin = ((pins c).port, true, (s.attached ids).calls (c.edge true),
      (s.attached ids).calls (c.edge false)) := by
  obtain ⟨o, ho, -, hconfig⟩ := h.pin c
  rw [hconfig, calls_attached, calls_attached, has_eq ho, has_eq ho]
  rfl

omit [DecidableEq ι] [Arith α] in
theorem Connected.pins_ne (h : s.Connected ids pins) : pins .A ≠ pins .B := by
  intro hpins
  exact EncoderPin.noConfusion (h.lines_inj (congrArg PinName.pin hpins))

omit [DecidableEq ι] [Arith α] in
/-- What is raised on the encoder's lines is wanted. -/
theorem Connected.flags_raise (h : s.Connected ids pins) (e : Occurrence ι (EncoderFunc β)) :
    (s.flags e).count (.raise (pins .A).pin) + (s.flags e).count (.raise (pins .B).pin) =
      s.wanted ids pins e := by
  cases e with
  | edge p => exact count_raised_add h.config h.pins_ne p
  | interrupt irq_index during =>
    cases hnext : s.next irq_index with
    | none => simp [flags, wanted, hnext]
    | some line =>
      have hserve : ∀ l, Flags.Event.serve line ≠ .raise l := by simp
      simp only [flags, wanted, hnext, List.count_cons_of_ne (hserve _), count_image, ← total_add]
      refine total_edges fun x hx p => ?_
      refine count_raised_add (fun c => ?_) h.pins_ne p
      rw [hx]
      exact h.config c
  | call id c => rfl
  | act func => rfl

omit [DecidableEq ι] [Arith α] in
/-- A pin without callbacks raises nothing. -/
theorem Connected.not_raised (h : s.Connected ids pins) {c : EncoderPin}
    (hc : ∀ level, (s.attached ids).calls (c.edge level) = false)
    (e : Occurrence ι (EncoderFunc β)) : .raise (pins c).pin ∉ s.flags e := by
  have hraised : ∀ x : Exti, x.config = s.exti.config → ∀ p, .raise (pins c).pin ∉ x.raised p := by
    intro x hx p
    rw [← List.count_eq_zero, count_raised (by rw [hx]; exact h.config c), hc, if_neg (by simp)]
  cases e with
  | edge p => exact hraised s.exti rfl p
  | interrupt irq_index during =>
    cases hnext : s.next irq_index with
    | none => simp [flags, hnext]
    | some line =>
      have himage : .raise (pins c).pin ∉
          image Exti.edge Exti.raised (s.exti.clearFlag line) during := by
        rw [← List.count_eq_zero, count_image, ← total_zero]
        exact total_edges fun x hx p => List.count_eq_zero.2 (hraised x hx p)
      simpa [flags, hnext] using himage
  | call id c => simp [flags]
  | act func => simp [flags]

omit [Arith α] in
theorem pulses_add_missed (e : Occurrence ι (EncoderFunc β)) :
    s.pulses ids pins e + s.missed ids pins e =
      (s.shown ids pins e).countP fun v => match v with
        | .edge _ => true
        | _ => false := by
  unfold pulses missed
  induction s.shown ids pins e with
  | nil => rfl
  | cons v l ih =>
    simp only [List.countP_cons]
    cases v with
    | edge g => cases hg : (s.attached ids).calls g <;> simp [hg] <;> omega
    | _ => simpa using ih

omit [Arith α] in
/-- What is served on the encoder's lines is a pulse, or missed. -/
theorem Connected.flags_serve (h : s.Connected ids pins) (e : Occurrence ι (EncoderFunc β)) :
    (s.flags e).count (.serve (pins .A).pin) + (s.flags e).count (.serve (pins .B).pin) =
      s.pulses ids pins e + s.missed ids pins e := by
  rw [pulses_add_missed]
  cases e with
  | edge p =>
    have hzero := fun line => count_serve_raised s.exti [p] line
    simp only [image, List.append_nil] at hzero
    simp [flags, shown, hzero]
  | interrupt irq_index during =>
    cases hnext : s.next irq_index with
    | none => simp [flags, shown, hnext]
    | some line =>
      have hne : (pins .A).pin ≠ (pins .B).pin := fun hline =>
        EncoderPin.noConfusion (h.lines_inj hline)
      simp only [flags, hnext, List.count_cons, count_serve_raised, shown, Option.bind_some,
        EncoderPin.find]
      by_cases hA : line = (pins .A).pin
      · subst hA
        simp [hne]
      · by_cases hB : line = (pins .B).pin <;> simp [hA, hB, hne.symm]
  | call id c =>
    cases c with
    | rise func =>
      simp only [flags, shown, List.count_nil]
      cases EncoderPin.find ids id <;> rfl
    | fall func =>
      simp only [flags, shown, List.count_nil]
      cases EncoderPin.find ids id <;> rfl
    | _ => rfl
  | act func => cases func <;> rfl

/-- **The buffer counts the pulses**, and a sample empties it. -/
theorem Connected.buffer_step (h : s.Connected ids pins) {e : Occurrence ι (EncoderFunc β)}
    (he : s.Proper e) (hallowed : Allowed ids e) :
    ((Interrupts.step (EncodedMotor.code others) s e).encoder ids).pulseBuffer +
      s.sampled ids e = (s.encoder ids).pulseBuffer + s.pulses ids pins e := by
  rw [h.encoder_step he hallowed]
  cases e with
  | edge p => rfl
  | interrupt irq_index during =>
    simp only [shown, pulses, sampled]
    split
    · rfl
    · simp only [exec_cons, exec_nil, EncodedMotor.pinEvent, EncodedMotor.signal,
        List.countP_singleton]
      split_ifs with hcalls hattached hattached
      · rfl
      · exact absurd hcalls hattached
      · exact absurd hattached hcalls
      · rfl
  | call id c =>
    cases c with
    | rise func =>
      simp only [shown, pulses, sampled]
      cases EncoderPin.find ids id <;> rfl
    | fall func =>
      simp only [shown, pulses, sampled]
      cases EncoderPin.find ids id <;> rfl
    | _ => rfl
  | act func =>
    cases func with
    | saveData currentTime => exact Nat.zero_add _
    | _ => rfl

/-! ### Runs of the encoder -/

variable {es : List (Occurrence ι (EncoderFunc β))}

theorem Connected.exec (h : s.Connected ids pins)
    (hes : AllSteps (Interrupts.step (EncodedMotor.code others))
      (fun s e => s.Proper e ∧ Allowed ids e) s es) :
    (Runs.exec (Interrupts.step (EncodedMotor.code others)) s es).Connected ids pins :=
  hes.invariant h fun _ _ ht he => ht.step he.1 he.2

/-- **Every edge to be counted is in the buffer or was sampled, is missed or merged, or waits.** -/
theorem Connected.ledger (h : s.Connected ids pins)
    (hes : AllSteps (Interrupts.step (EncodedMotor.code others))
      (fun s e => s.Proper e ∧ Allowed ids e) s es) :
    let run := Runs.exec (Interrupts.step (EncodedMotor.code others)) s es
    (s.encoder ids).pulseBuffer + s.waiting pins +
        total (Interrupts.step (EncodedMotor.code others)) (wanted ids pins) s es =
      (run.encoder ids).pulseBuffer +
      total (Interrupts.step (EncodedMotor.code others)) (sampled ids) s es +
      total (Interrupts.step (EncodedMotor.code others)) (missed ids pins) s es +
      merged pins s.exti.PR (image (Interrupts.step (EncodedMotor.code others)) flags s es) +
      run.waiting pins := by
  intro run
  obtain ⟨hPR, hwaits⟩ := h.sound.exec_flags (hes.imp fun _ _ he => he.1)
  have hA := Flags.ledger hwaits (pins .A).pin
  have hB := Flags.ledger hwaits (pins .B).pin
  rw [← hPR] at hA hB
  have hraise := hes.total_congr (P := Connected ids pins) h (fun _ _ ht he => ht.step he.1 he.2)
    fun t e ht _ => ht.flags_raise e
  have hserve := hes.total_congr (P := Connected ids pins) h (fun _ _ ht he => ht.step he.1 he.2)
    fun t e ht _ => ht.flags_serve e
  rw [total_add, ← count_image, ← count_image] at hraise hserve
  rw [total_add] at hserve
  have hbuffer := hes.total_balance (P := Connected ids pins) (fun s => (s.encoder ids).pulseBuffer) h
    (fun _ _ ht he => ht.step he.1 he.2) fun t e ht he => ht.buffer_step he.1 he.2
  simp only [waiting, merged, run]
  omega

/-! ### Which edges are attached -/

/-- The occurrence is a call on an object of the encoder. -/
def encoderCall (ids : EncoderPin → ι) : Occurrence ι (EncoderFunc β) → Bool
  | .call id _ => id = ids .A ∨ id = ids .B
  | _ => false

/-- The edges attached after an occurrence. -/
def reattach (ids : EncoderPin → ι) (a : Attached) : Occurrence ι (EncoderFunc β) → Attached
  | .call id (.rise func) =>
    match EncoderPin.find ids id with
    | none => a
    | some c => a.set (c.edge true) func.isSome
  | .call id (.fall func) =>
    match EncoderPin.find ids id with
    | none => a
    | some c => a.set (c.edge false) func.isSome
  | _ => a

theorem ne_of_encoderCall {id : ι} {c : Call (EncoderFunc β)}
    (h : encoderCall ids (.call id c) = false) (c' : EncoderPin) : id ≠ ids c' := by
  rintro rfl
  cases c' <;> simp [encoderCall] at h

theorem reattach_eq {a : Attached} {e : Occurrence ι (EncoderFunc β)}
    (he : encoderCall ids e = false) : reattach ids a e = a := by
  cases e with
  | call id c =>
    have hfind := find_none (ne_of_encoderCall he)
    cases c <;> simp [reattach, hfind]
  | _ => rfl

theorem foldl_reattach (a : Attached) (es : List (Occurrence ι (EncoderFunc β))) :
    es.foldl (reattach ids) a = (es.filter (encoderCall ids)).foldl (reattach ids) a := by
  induction es generalizing a with
  | nil => rfl
  | cons e es ih =>
    cases he : encoderCall ids e with
    | true => simp [he, ih]
    | false => simp [he, ih, reattach_eq he]

/-- What the constructor and `Stop` attach and detach. -/
theorem foldl_attachCalls (hids : Function.Injective ids) (a : Attached) (on : Bool)
    (encodeType : EncodeType) :
    (EncodedMotor.attachCalls ids on encodeType :
      List (Occurrence ι (EncoderFunc β))).foldl (reattach ids) a =
        EncodedMotor.edges a on encodeType := by
  have hA := find_self hids .A
  have hB := find_self hids .B
  cases encodeType <;> cases on <;>
    simp [EncodedMotor.attachCalls, reattach, hA, hB, EncoderPin.edge, Attached.set,
      EncodedMotor.edges]

theorem Connected.attached_step (h : s.Connected ids pins) {e : Occurrence ι (EncoderFunc β)}
    (he : s.Proper e) (hallowed : Allowed ids e) :
    (Interrupts.step (EncodedMotor.code others) s e).attached ids =
      reattach ids (s.attached ids) e := by
  have hstep : (Interrupts.step (EncodedMotor.code others) s e).encoder ids = _ :=
    h.encoder_step he hallowed
  refine (congrArg EncodedMotor.encoderInterrupt hstep).trans ?_
  cases e with
  | edge p => rfl
  | interrupt irq_index during =>
    simp only [shown]
    split
    · rfl
    · simp only [exec_cons, exec_nil, EncodedMotor.pinEvent, EncodedMotor.signal]
      split_ifs <;> rfl
  | call id c =>
    cases c with
    | rise func =>
      simp only [shown, reattach]
      cases EncoderPin.find ids id <;> rfl
    | fall func =>
      simp only [shown, reattach]
      cases EncoderPin.find ids id <;> rfl
    | _ => rfl
  | act func => cases func <;> rfl

theorem Connected.attached_exec (h : s.Connected ids pins)
    (hes : AllSteps (Interrupts.step (EncodedMotor.code others))
      (fun s e => s.Proper e ∧ Allowed ids e) s es) :
    (Runs.exec (Interrupts.step (EncodedMotor.code others)) s es).attached ids =
      (es.filter (encoderCall ids)).foldl (reattach ids) (s.attached ids) := by
  rw [← foldl_reattach]
  induction es generalizing s with
  | nil => rfl
  | cons e es ih =>
    rw [exec_cons, ih (h.step hes.1.1 hes.1.2) hes.2, h.attached_step hes.1.1 hes.1.2]
    rfl

/-! ### The constructor and `Stop` -/

/-- The constructor's calls. -/
def constructCalls (ids : EncoderPin → ι) (pins : EncoderPin → PinName) (encodeType : EncodeType) :
    List (Occurrence ι (EncoderFunc β)) :=
  [.call (ids .A) (.construct (pins .A)), .call (ids .B) (.construct (pins .B))] ++
    EncodedMotor.attachCalls ids true encodeType

omit [DecidableEq ι] in
theorem allowed_attachCalls (on : Bool) (encodeType : EncodeType) :
    ∀ e ∈ (EncodedMotor.attachCalls ids on encodeType : List (Occurrence ι (EncoderFunc β))),
      Allowed ids e := by
  have hA : ∀ f ∈ (if on then some .incrementPulse else none : Option (EncoderFunc β)),
      Belongs ids (ids .A) f := by
    cases on <;> simp [Belongs]
  have hB : ∀ f ∈ (if on then some .incrementPulse else none : Option (EncoderFunc β)),
      Belongs ids (ids .B) f := by
    cases on <;> simp [Belongs]
  cases encodeType with
  | X1 => exact List.forall_mem_cons.2 ⟨hA, by simp⟩
  | X2 => exact List.forall_mem_cons.2 ⟨hA, List.forall_mem_cons.2 ⟨hA, by simp⟩⟩
  | X4 =>
    refine List.forall_mem_cons.2 ⟨hA, List.forall_mem_cons.2 ⟨hA, ?_⟩⟩
    exact List.forall_mem_cons.2 ⟨hB, List.forall_mem_cons.2 ⟨hB, by simp⟩⟩

/-- A new object is on its pin, and latches nothing. -/
theorem Sound.construct_pin {β γ : Type} {s : Interrupts ι β γ} (h : s.Sound) (id : ι)
    {pin : PinName} (hpin : s.Unused pin.pin) :
    ⟨⟨(pin_lines_desc pin.pin).irq_index, false, false, pin⟩, none, none⟩ ∈
        (s.construct id pin).interruptIn id ∧
      (s.construct id pin).exti.config pin.pin = (pin.port, true, false, false) := by
  have hold := (h.unused pin.pin hpin).2
  simp only [Exti.config, Prod.mk.injEq] at hold
  refine ⟨Function.update_self .., ?_⟩
  simp [Interrupts.construct, gpio_irq_init, GpioIrq.gpio_irq_enable, Exti.config, hold]

omit [Arith α] in
theorem connected_construct (h : s.Sound) (hsuited : s.Suited ids)
    (hA : s.Proper (.call (ids .A) (.construct (pins .A))))
    (hB : (s.construct (ids .A) (pins .A)).Proper (.call (ids .B) (.construct (pins .B)))) :
    let s' := (s.construct (ids .A) (pins .A)).construct (ids .B) (pins .B)
    s'.Connected ids pins ∧ s'.attached ids = ⟨false, false, false, false⟩ := by
  intro s'
  have hsound := h.construct hA.1 hA.2
  obtain ⟨hobjA, hconfigA⟩ := h.construct_pin (ids .A) hA.2
  obtain ⟨hobjB, hconfigB⟩ := hsound.construct_pin (ids .B) hB.2
  have hne : ids .A ≠ ids .B := by
    intro hids
    have hnone := hB.1
    rw [← hids, Option.mem_def.1 hobjA] at hnone
    cases hnone
  have hframe : s'.exti.config (pins .A).pin =
      (s.construct (ids .A) (pins .A)).exti.config (pins .A).pin :=
    hsound.call_config hB hobjA hne
  have hkept := (call_interruptIn _ hne (.construct (pins .B))).symm ▸ hobjA
  have hfirst : (s.construct (ids .A) (pins .A)).Suited ids :=
    hsuited.call (c := .construct (pins .A)) (by simp)
  refine ⟨⟨hsound.construct hB.1 hB.2, ?_, fun c => ?_,
    hfirst.call (c := .construct (pins .B)) (by simp)⟩, ?_⟩
  · intro c c' hids
    cases c <;> cases c' <;> first | rfl | exact absurd hids hne | exact absurd hids hne.symm
  · cases c with
    | A => exact ⟨_, hkept, rfl, hframe.trans hconfigA⟩
    | B => exact ⟨_, hobjB, rfl, hconfigB⟩
  · have hA := has_eq hkept
    have hB := has_eq hobjB
    exact Attached.ext (hA true) (hA false) (hB true) (hB false)

theorem Suited.step {s : Interrupts ι (EncoderFunc β) (EncodedMotor α × γ)} (hs : s.Sound)
    (h : s.Suited ids) {e : Occurrence ι (EncoderFunc β)} (he : s.Proper e)
    (hallowed : Allowed ids e) :
    (Interrupts.step (EncodedMotor.code others) s e).Suited ids := by
  rw [step_eq hs.error]
  cases e with
  | edge p => exact h
  | interrupt irq_index during =>
    obtain ⟨id, o, -, -, -, hserve⟩ := hs.interrupt_spec he (EncodedMotor.code others) during
    show (s.handle_interrupt_in _ during irq_index).Suited ids
    rw [hserve]
    exact h
  | call id c => exact h.call fun _ => belongs_of_allowed hallowed
  | act func => exact h

/-- The constructor connects the encoder. -/
theorem Sound.constructCalls (h : s.Sound) (hsuited : s.Suited ids) {encodeType : EncodeType}
    (hctor : AllSteps (Interrupts.step (EncodedMotor.code others)) Proper s
      (constructCalls ids pins encodeType)) :
    let s' := Runs.exec (Interrupts.step (EncodedMotor.code others)) s
      (Interrupts.constructCalls ids pins encodeType)
    s'.Connected ids pins ∧
      s'.attached ids = EncodedMotor.edges ⟨false, false, false, false⟩ true encodeType := by
  intro s'
  obtain ⟨hA, hB, hattach⟩ := hctor
  have hstepA : Interrupts.step (EncodedMotor.code others) s
    (.call (ids .A) (.construct (pins .A))) = s.construct (ids .A) (pins .A) := step_eq h.error _
  have hstepB : Interrupts.step (EncodedMotor.code others) (s.construct (ids .A) (pins .A))
      (.call (ids .B) (.construct (pins .B))) =
        (s.construct (ids .A) (pins .A)).construct (ids .B) (pins .B) :=
    step_eq (h.construct hA.1 hA.2).error _
  rw [hstepA] at hB hattach
  rw [hstepB] at hattach
  obtain ⟨hconnected, hnone⟩ := connected_construct h hsuited hA hB
  have hs' : s' = Runs.exec (Interrupts.step (EncodedMotor.code others))
      ((s.construct (ids .A) (pins .A)).construct (ids .B) (pins .B))
        (EncodedMotor.attachCalls ids true encodeType) := by
    rw [← hstepB, ← hstepA]
    rfl
  have hattach' : AllSteps _ Proper _ (EncodedMotor.attachCalls ids true encodeType) := hattach
  have hsteps := hattach'.and_mem (allowed_attachCalls true encodeType)
  rw [hs', hconnected.attached_exec hsteps, hnone, ← foldl_reattach]
  exact ⟨hconnected.exec hsteps, foldl_attachCalls hconnected.ids_inj _ true encodeType⟩

/-! ### Encodings that count both edges -/

/-- Each pin has callbacks for both edges, or for none and no flag. -/
def Whole (ids : EncoderPin → ι) (pins : EncoderPin → PinName)
    (s : Interrupts ι (EncoderFunc β) (EncodedMotor α × γ)) : Prop :=
  ∀ c : EncoderPin, (∀ level, (s.attached ids).calls (c.edge level) = true) ∨
    (∀ level, (s.attached ids).calls (c.edge level) = false) ∧ s.exti.PR (pins c).pin = false

theorem Whole.step (hw : s.Whole ids pins) (h : s.Connected ids pins)
    {e : Occurrence ι (EncoderFunc β)} (he : s.Proper e) (hallowed : Allowed ids e)
    (hcall : encoderCall ids e = false) :
    (Interrupts.step (EncodedMotor.code others) s e).Whole ids pins := by
  intro c
  rw [h.attached_step he hallowed, reattach_eq hcall]
  refine (hw c).imp id fun ⟨hnone, hclear⟩ => ⟨hnone, ?_⟩
  rw [(h.sound.step_flags he).1]
  exact Flags.stays_clear hclear (h.not_raised hnone e)

omit [Arith α] in
theorem Whole.missed_eq (hw : s.Whole ids pins) (h : s.Connected ids pins)
    {e : Occurrence ι (EncoderFunc β)} (he : s.Proper e) : s.missed ids pins e = 0 := by
  refine List.countP_eq_zero.2 fun v hv => ?_
  cases e with
  | edge p => cases hv
  | interrupt irq_index during =>
    obtain ⟨id, o, ho, hnext, hPR, -⟩ := h.sound.interrupt_spec he (fun _ w => w) during
    simp only [shown, hnext, Option.bind_some] at hv
    cases hfind : EncoderPin.find (fun c => (pins c).pin) o.gpio_irq.pin.pin with
    | none =>
      rw [hfind] at hv
      cases hv
    | some c =>
      rw [hfind] at hv
      obtain rfl := List.mem_singleton.1 hv
      rcases hw c with hall | ⟨-, hclear⟩
      · simp [hall]
      · rw [← eq_of_find hfind, hPR] at hclear
        cases hclear
  | call id c =>
    cases c with
    | rise func =>
      simp only [shown] at hv
      cases hfind : EncoderPin.find ids id <;> simp_all
    | fall func =>
      simp only [shown] at hv
      cases hfind : EncoderPin.find ids id <;> simp_all
    | _ => cases hv
  | act func =>
    cases func with
    | saveData currentTime =>
      obtain rfl := List.mem_singleton.1 hv
      simp
    | _ => cases hv

/-- Without callbacks only samples change the encoder. -/
theorem exec_shown_still (hnone : s.attached ids = ⟨false, false, false, false⟩)
    {e : Occurrence ι (EncoderFunc β)} (hcall : encoderCall ids e = false)
    (hsave : ∀ t, e ≠ .act (.saveData t)) :
    Runs.exec EncodedMotor.pinEvent (s.encoder ids) (s.shown ids pins e) = s.encoder ids := by
  cases e with
  | edge p => rfl
  | interrupt irq_index during =>
    simp only [shown]
    split
    · rfl
    · rename_i c _
      have hcalls : ∀ g, (s.encoder ids).encoderInterrupt.calls g = false := by
        intro g
        show (s.attached ids).calls g = false
        rw [hnone]
        cases g <;> rfl
      simp [EncodedMotor.pinEvent, EncodedMotor.signal, hcalls]
  | call id c =>
    have hfind := find_none (ne_of_encoderCall hcall)
    cases c <;> simp [shown, hfind]
  | act func =>
    cases func with
    | saveData currentTime => exact absurd rfl (hsave currentTime)
    | _ => rfl

section Program

variable {IDR : PinName → Bool} {world : EncodedMotor α × γ} {encodeType : EncodeType}
  {prior : List (Occurrence ι (EncoderFunc β))}

/-- An encoder is constructed somewhere in a run.  Nothing interrupts its constructor, though that has
no critical section. -/
theorem connected_start
    (hes : AllSteps (Interrupts.step (EncodedMotor.code others)) Proper (reset IDR world)
      (prior ++ (Interrupts.constructCalls ids pins encodeType ++ es)))
    (hallowed : ∀ e ∈ prior ++ es, Allowed ids e) :
    let s := Runs.exec (Interrupts.step (EncodedMotor.code others)) (reset IDR world)
      (prior ++ Interrupts.constructCalls ids pins encodeType)
    s.Connected ids pins ∧
      s.attached ids = EncodedMotor.edges ⟨false, false, false, false⟩ true encodeType ∧
      AllSteps (Interrupts.step (EncodedMotor.code others))
        (fun s e => s.Proper e ∧ Allowed ids e) s es := by
  intro s
  obtain ⟨hprior, hrest⟩ := allSteps_append.1 hes
  obtain ⟨hctor, hes⟩ := allSteps_append.1 hrest
  obtain ⟨hallowedprior, hallowed⟩ := List.forall_mem_append.1 hallowed
  obtain ⟨hsound, hsuited⟩ := (hprior.and_mem hallowedprior).invariant
    (P := fun s => s.Sound ∧ s.Suited ids) ⟨sound_reset IDR world, fun _ _ h => by cases h⟩
    fun t e ht he => ⟨ht.1.step he.1, ht.2.step ht.1 he.1 he.2⟩
  obtain ⟨hconnected, hattached⟩ := hsound.constructCalls hsuited hctor
  rw [← exec_append] at hconnected hattached hes
  exact ⟨hconnected, hattached, hes.and_mem hallowed⟩

/-- **The encoder's model is what happens on its pins.**  The constructor attaches the edges that
the model says, and afterwards everything that takes place is, to the encoder, the list of signals
that it is shown: an edge each time one of its lines is served, in the direction that the pin shows
then. -/
theorem encoder_of_run
    (hes : AllSteps (Interrupts.step (EncodedMotor.code others)) Proper (reset IDR world)
      (prior ++ (Interrupts.constructCalls ids pins encodeType ++ es)))
    (hallowed : ∀ e ∈ prior ++ es, Allowed ids e) :
    let s := Runs.exec (Interrupts.step (EncodedMotor.code others)) (reset IDR world)
      (prior ++ Interrupts.constructCalls ids pins encodeType)
    (s.encoder ids).encoderInterrupt =
        EncodedMotor.edges ⟨false, false, false, false⟩ true encodeType ∧
      (Runs.exec (Interrupts.step (EncodedMotor.code others)) s es).encoder ids =
        Runs.exec EncodedMotor.pinEvent (s.encoder ids)
          (image (Interrupts.step (EncodedMotor.code others)) (shown ids pins) s es) := by
  intro s
  obtain ⟨hconnected, hattached, hsteps⟩ := connected_start hes hallowed
  refine ⟨hattached, ?_⟩
  exact exec_image (f := encoder ids) (Q := Connected ids pins) hsteps hconnected
    (fun _ _ h he => h.step he.1 he.2) fun _ _ h he => h.encoder_step he.1 he.2

/-- The encoder's pins as the program connects them. -/
def encoderPins : EncoderPin → PinName
  | .A => PA_9
  | .B => PA_8

def encoderIds : EncoderPin → Fin 3
  | .A => 0
  | .B => 1

theorem encoder_of_run_applies :
    let step := Interrupts.step (ι := Fin 3) (EncodedMotor.code (α := ℚ) fun (_ : Unit) w => w + 1)
    let s := Runs.exec step (reset (fun _ => false) (EncodedMotor.construct 7392 10 .X4, 0))
      ([.call 2 (.construct ⟨2, 13⟩), .call 2 (.rise (some (.other ())))] ++
        Interrupts.constructCalls encoderIds encoderPins .X4)
    let es := [.edge ⟨0, 9⟩, .interrupt 5 [], .edge ⟨2, 13⟩, .edge ⟨0, 8⟩, .interrupt 6 [],
      .interrupt 5 [⟨0, 9⟩], .act (.saveData 100000), .interrupt 5 []]
    (s.encoder encoderIds).encoderInterrupt =
        EncodedMotor.edges ⟨false, false, false, false⟩ true .X4 ∧
      (Runs.exec step s es).encoder encoderIds =
        Runs.exec EncodedMotor.pinEvent (s.encoder encoderIds)
          (image step (shown encoderIds encoderPins) s es) :=
  encoder_of_run (by decide +kernel) (by decide +kernel)

/-- **Every edge is accounted for.**  Of the edges with a callback on the encoder's pins each one is
in `pulseBuffer` or was sampled, was merged with one that was waiting, waits, or was missed, because
the pin showed the other level when it was served.  None is missed where both edges of a pin have a
callback, if no flag was raised on the pins when the encoder was constructed. -/
theorem pulses_of_run
    (hes : AllSteps (Interrupts.step (EncodedMotor.code others)) Proper (reset IDR world)
      (prior ++ (Interrupts.constructCalls ids pins encodeType ++ es)))
    (hallowed : ∀ e ∈ prior ++ es, Allowed ids e) :
    let s := Runs.exec (Interrupts.step (EncodedMotor.code others)) (reset IDR world)
      (prior ++ Interrupts.constructCalls ids pins encodeType)
    let s' := Runs.exec (Interrupts.step (EncodedMotor.code others)) s es
    (s.encoder ids).pulseBuffer + s.waiting pins +
          total (Interrupts.step (EncodedMotor.code others)) (wanted ids pins) s es =
        (s'.encoder ids).pulseBuffer +
        total (Interrupts.step (EncodedMotor.code others)) (sampled ids) s es +
        total (Interrupts.step (EncodedMotor.code others)) (missed ids pins) s es +
        merged pins s.exti.PR (image (Interrupts.step (EncodedMotor.code others)) flags s es) +
        s'.waiting pins ∧
      (encodeType ≠ .X1 → s.waiting pins = 0 → (∀ e ∈ es, encoderCall ids e = false) →
        total (Interrupts.step (EncodedMotor.code others)) (missed ids pins) s es = 0) := by
  intro s s'
  obtain ⟨hconnected, hattached, hsteps⟩ := connected_start hes hallowed
  refine ⟨hconnected.ledger hsteps, fun htype hwaiting hcalls => ?_⟩
  have hwhole : s.Whole ids pins := by
    have hclear : ∀ c, s.exti.PR (pins c).pin = false := by
      intro c
      have hzero := Nat.add_eq_zero_iff.1 hwaiting
      cases c with
      | A => simpa using hzero.1
      | B => simpa using hzero.2
    intro c
    rw [hattached]
    cases encodeType with
    | X1 => exact absurd rfl htype
    | X2 =>
      cases c with
      | A => exact Or.inl fun level => by cases level <;> rfl
      | B => exact Or.inr ⟨fun level => by cases level <;> rfl, hclear .B⟩
    | X4 => exact Or.inl fun level => by cases c <;> cases level <;> rfl
  exact ((hsteps.and_mem hcalls).total_congr
    (P := fun s => s.Connected ids pins ∧ s.Whole ids pins) ⟨hconnected, hwhole⟩
    (fun t e ht he => ⟨ht.1.step he.1.1 he.1.2, ht.2.step ht.1 he.1.1 he.1.2 he.2⟩)
    fun t e ht he => ht.2.missed_eq ht.1 he.1.1).trans total_zero

/-- Two edges of one pin while its handler runs: the second one is merged with the first. -/
theorem pulses_of_run_applies :
    let step := Interrupts.step (ι := Fin 3) (EncodedMotor.code (α := ℚ) fun (_ : Unit) w => w + 1)
    let s := Runs.exec step (reset (fun _ => false) (EncodedMotor.construct 7392 10 .X2, 0))
      ([.call 2 (.construct ⟨2, 13⟩)] ++ Interrupts.constructCalls encoderIds encoderPins .X2)
    let es := [.edge ⟨0, 9⟩, .interrupt 5 [⟨0, 9⟩, ⟨0, 9⟩], .act (.saveData 100000), .edge ⟨0, 8⟩,
      .interrupt 5 []]
    let s' := Runs.exec step s es
    (s.encoder encoderIds).pulseBuffer + s.waiting encoderPins +
          total step (wanted encoderIds encoderPins) s es =
        (s'.encoder encoderIds).pulseBuffer + total step (sampled encoderIds) s es +
        total step (missed encoderIds encoderPins) s es +
        merged encoderPins s.exti.PR (image step flags s es) + s'.waiting encoderPins ∧
      (EncodeType.X2 ≠ .X1 → s.waiting encoderPins = 0 →
        (∀ e ∈ es, encoderCall encoderIds e = false) →
          total step (missed encoderIds encoderPins) s es = 0) :=
  pulses_of_run (by decide +kernel) (by decide +kernel)

/-- **After `Stop` the encoder stands still.**  Once the calls of `Stop` are made, whatever else
takes place between them, and no sample is taken any more, nothing changes it, neither edges to come
nor those whose flags are raised. -/
theorem stopped_of_run {es₁ es₂ es₃ : List (Occurrence ι (EncoderFunc β))}
    (hes : AllSteps (Interrupts.step (EncodedMotor.code others)) Proper (reset IDR world)
      (prior ++ (Interrupts.constructCalls ids pins encodeType ++ (es₁ ++ es₂ ++ es₃))))
    (hallowed : ∀ e ∈ prior ++ (es₁ ++ es₂ ++ es₃), Allowed ids e)
    (hrunning : ∀ e ∈ es₁, encoderCall ids e = false)
    (hstop : es₂.filter (encoderCall ids) = EncodedMotor.attachCalls ids false encodeType)
    (hstopped : ∀ e ∈ es₃, encoderCall ids e = false ∧ ∀ t, e ≠ .act (.saveData t)) :
    let s := Runs.exec (Interrupts.step (EncodedMotor.code others)) (reset IDR world)
      (prior ++ Interrupts.constructCalls ids pins encodeType)
    let s' := Runs.exec (Interrupts.step (EncodedMotor.code others)) s (es₁ ++ es₂)
    (Runs.exec (Interrupts.step (EncodedMotor.code others)) s' es₃).encoder ids =
      s'.encoder ids := by
  intro s s'
  obtain ⟨hconnected, hattached, hsteps⟩ := connected_start hes hallowed
  obtain ⟨hsteps, hsteps₃⟩ := allSteps_append.1 hsteps
  have hfilter : (es₁ ++ es₂).filter (encoderCall ids) =
      EncodedMotor.attachCalls ids false encodeType := by
    rw [List.filter_append, hstop, List.filter_eq_nil_iff.2 fun e he => by simp [hrunning e he]]
    rfl
  have hnone : s'.attached ids = ⟨false, false, false, false⟩ := by
    rw [hconnected.attached_exec hsteps, hfilter, hattached,
      foldl_attachCalls hconnected.ids_inj]
    cases encodeType <;> rfl
  have hstill := (hsteps₃.and_mem hstopped).invariant
    (P := fun t => (t.Connected ids pins ∧ t.attached ids = ⟨false, false, false, false⟩) ∧
      t.encoder ids = s'.encoder ids) ⟨⟨hconnected.exec hsteps, hnone⟩, rfl⟩ ?_
  · exact hstill.2
  · rintro t e ⟨⟨hconnected, hnone⟩, hsame⟩ ⟨⟨he, hallowed⟩, hcall, hsave⟩
    refine ⟨⟨hconnected.step he hallowed, ?_⟩, ?_⟩
    · rw [hconnected.attached_step he hallowed, reattach_eq hcall, hnone]
    · rw [hconnected.encoder_step he hallowed, ← hsame]
      exact exec_shown_still hnone hcall hsave

/-- An edge comes between the calls of `Stop`, and one after them. -/
theorem stopped_of_run_applies :
    let step := Interrupts.step (ι := Fin 3) (EncodedMotor.code (α := ℚ) fun (_ : Unit) w => w + 1)
    let s := Runs.exec step (reset (fun _ => false) (EncodedMotor.construct 7392 10 .X2, 0))
      ([.call 2 (.construct ⟨2, 13⟩)] ++ Interrupts.constructCalls encoderIds encoderPins .X2)
    let s' := Runs.exec step s ([.edge ⟨0, 9⟩, .interrupt 5 []] ++
      [.call 0 (.rise none), .edge ⟨0, 9⟩, .call 0 (.fall none)])
    (Runs.exec step s' [.interrupt 5 [], .edge ⟨0, 9⟩]).encoder encoderIds =
      s'.encoder encoderIds :=
  stopped_of_run (by decide +kernel) (by decide +kernel) (by decide +kernel) (by decide +kernel)
    (by simp [encoderCall])

end Program

end Interrupts

end NucleoMotor
