import NucleoMotor.GpioIrq

/-!
# Runs of the pins' interrupts

In every proper run the channels name exactly the objects that exist (`Sound`), so that an interrupt
serves the first flagged line of its vector (`interrupt_spec`) and never reports a spurious one
(`served_of_run`).  The EXTI's flags make a bank of flags (`step_flags`), which accounts for all
edges (`edges_of_run`) and bounds how often a line is overtaken (`overtaken_le`).
-/

namespace NucleoMotor

open Runs

/-! ### Lines and vectors -/

theorem pin_lines_desc_inj : Function.Injective pin_lines_desc := by
  intro line line' h
  revert line line'
  decide

/-- The lines of a vector. -/
def lines (irq_index : ℕ) : List (Fin 16) :=
  (List.finRange 16).filter fun line => (pin_lines_desc line).irq_index = irq_index

theorem mem_lines {irq_index : ℕ} {line : Fin 16} :
    line ∈ lines irq_index ↔ (pin_lines_desc line).irq_index = irq_index := by
  simp [lines]

theorem lines_sorted (irq_index : ℕ) : (lines irq_index).Pairwise (· < ·) :=
  (List.pairwise_lt_finRange 16).filter _

theorem le_of_find? {l : List (Fin 16)} (hl : l.Pairwise (· < ·)) {p : Fin 16 → Bool} {i j : Fin 16}
    (hfind : l.find? p = some i) (hj : j ∈ l) (hp : p j = true) : i ≤ j := by
  induction l with
  | nil => cases hj
  | cons k l ih =>
    obtain ⟨hk, hl⟩ := List.pairwise_cons.1 hl
    cases hpk : p k with
    | true =>
      rw [List.find?_cons_of_pos hpk] at hfind
      obtain rfl := Option.some.inj hfind
      rcases List.mem_cons.1 hj with rfl | hj
      · exact le_rfl
      · exact (hk j hj).le
    | false =>
      rw [List.find?_cons_of_neg (by simp [hpk])] at hfind
      rcases List.mem_cons.1 hj with rfl | hj
      · rw [hp] at hpk
        cases hpk
      · exact ih hl hfind hj

/-- A vector's lines stand in the channel in their order. -/
theorem map_lines (irq_index : ℕ) :
    (lines irq_index).map (fun line => (pin_lines_desc line).gpio_idx) =
      List.range (EXTI_IRQ_NUM_LINES irq_index) := by
  rcases Nat.lt_or_ge irq_index 7 with h | h
  · interval_cases irq_index <;> decide
  · have hlines : lines irq_index = [] := by
      refine List.filter_eq_nil_iff.2 fun line _ => ?_
      have hline : (pin_lines_desc line).irq_index < 7 := by
        revert line
        decide
      simp
      omega
    have hnum : EXTI_IRQ_NUM_LINES irq_index = 0 := by
      unfold EXTI_IRQ_NUM_LINES
      split <;> first | rfl | omega
    rw [hlines, hnum]
    rfl

/-! ### Edges -/

namespace Exti

/-- Edges change levels and flags only. -/
theorem exec_edge (x : Exti) (ps : List PinName) : exec edge x ps =
    { x with IDR := (exec edge x ps).IDR, PR := (exec edge x ps).PR } := by
  refine exec_invariant (P := fun y : Exti => y = { x with IDR := y.IDR, PR := y.PR }) rfl ?_ ps
  intro y p hy
  rw [hy]
  rfl

/-- The event of an edge that is latched. -/
def raised (x : Exti) (p : PinName) : List (Flags.Event (Fin 16)) :=
  if x.latches p then [.raise p.pin] else []

theorem edge_PR (x : Exti) (p : PinName) : (x.edge p).PR = exec Flags.step x.PR (x.raised p) := by
  unfold edge raised
  split_ifs <;> rfl

theorem waits_raised (x : Exti) (p : PinName) :
    AllSteps Flags.step Flags.Waits x.PR (x.raised p) := by
  unfold raised
  split_ifs
  · exact ⟨trivial, trivial⟩
  · trivial

theorem exec_edge_PR (x : Exti) (ps : List PinName) :
    (exec edge x ps).PR = exec Flags.step x.PR (image edge raised x ps) :=
  exec_image (f := Exti.PR) (Q := fun _ => True) (allSteps_true x ps) trivial
    (fun _ _ _ _ => trivial) fun y p _ _ => edge_PR y p

theorem waits_image_raised (x : Exti) (ps : List PinName) :
    AllSteps Flags.step Flags.Waits x.PR (image edge raised x ps) :=
  allSteps_image (f := Exti.PR) edge_PR (fun y p _ => waits_raised y p) (allSteps_true x ps)

/-- The port that a line listens to, whether it interrupts, and the edges it latches. -/
def config (x : Exti) (line : Fin 16) : ℕ × Bool × Bool × Bool :=
  (x.EXTICR line, x.IMR line, x.RTSR line, x.FTSR line)

theorem config_exec_edge (x : Exti) (ps : List PinName) : (exec edge x ps).config = x.config := by
  rw [exec_edge]
  rfl

end Exti

namespace GpioIrq

variable {obj : GpioIrq} {x : Exti} {line : Fin 16}

theorem config_set (event : GpioIrqEvent) (enable : Bool) (h : line ≠ obj.pin.pin) :
    (obj.gpio_irq_set x event enable).2.config line = x.config line := by
  cases event <;> simp [gpio_irq_set, Exti.config, Function.update_of_ne h]

theorem config_enable (h : line ≠ obj.pin.pin) :
    (obj.gpio_irq_enable x).config line = x.config line := by
  simp only [gpio_irq_enable, Exti.config, Function.update_of_ne h]
  split_ifs <;> simp [Function.update_of_ne h]

theorem config_disable (h : line ≠ obj.pin.pin) :
    (obj.gpio_irq_disable x).config line = x.config line := by
  simp [gpio_irq_disable, Exti.config, Function.update_of_ne h]

end GpioIrq

/-! ### The channels -/

/-- What the channels hold for a line: the mask, the identifier and the pin. -/
def entry {ι : Type} (channels : ℕ → GpioChannel ι) (line : Fin 16) : Bool × Option ι × PinName :=
  let desc := pin_lines_desc line
  let gpio_channel := channels desc.irq_index
  (gpio_channel.pin_mask desc.gpio_idx, gpio_channel.channel_ids desc.gpio_idx,
    ⟨gpio_channel.channel_gpio desc.gpio_idx, gpio_channel.channel_pin desc.gpio_idx⟩)

theorem entry_set {ι : Type} (channels : ℕ → GpioChannel ι) (line : Fin 16) (mask : Bool)
    (id : Option ι) (gpio : ℕ) (pin : Fin 16) :
    let desc := pin_lines_desc line
    entry (Function.update channels desc.irq_index
        ((channels desc.irq_index).set desc.gpio_idx mask id gpio pin)) =
      Function.update (entry channels) line (mask, id, ⟨gpio, pin⟩) := by
  intro desc
  funext line'
  by_cases hline : line' = line
  · subst hline
    simp [entry, GpioChannel.set, desc]
  · rw [Function.update_of_ne hline]
    by_cases hirq : (pin_lines_desc line').irq_index = desc.irq_index
    · have hidx : (pin_lines_desc line').gpio_idx ≠ desc.gpio_idx := by
        intro hidx
        exact hline (pin_lines_desc_inj (by
          show pin_lines_desc line' = desc
          cases h : pin_lines_desc line'
          simp_all))
      simp [entry, GpioChannel.set, hirq, Function.update_of_ne hidx]
    · simp [entry, Function.update_of_ne hirq]

/-- The callback of an object for an edge to the level. -/
def InterruptIn.callback {β : Type} (o : InterruptIn β) (level : Bool) : Option β :=
  if level then o._rise else o._fall

namespace Interrupts

variable {ι β γ : Type} [DecidableEq ι] {code : β → γ → γ} {s : Interrupts ι β γ}

/-- The channels name exactly the objects that exist, and only their lines are not masked. -/
structure Sound (s : Interrupts ι β γ) : Prop where
  error : s.error = false
  unused : ∀ line, s.Unused line →
    (entry s.channels line).1 = false ∧ (s.exti.config line).2 = (false, false, false)
  used : ∀ id, ∀ o ∈ s.interruptIn id,
    entry s.channels o.gpio_irq.pin.pin = (true, some id, o.gpio_irq.pin) ∧
      o.gpio_irq.irq_index = (pin_lines_desc o.gpio_irq.pin.pin).irq_index

omit [DecidableEq ι] in
theorem not_unused {line : Fin 16} (h : ¬ s.Unused line) :
    ∃ id, ∃ o ∈ s.interruptIn id, o.gpio_irq.pin.pin = line := by
  simpa [Unused] using h

omit [DecidableEq ι] in
theorem sound_reset (IDR : PinName → Bool) (world : γ) :
    (reset IDR world : Interrupts ι β γ).Sound where
  error := rfl
  unused := fun _ _ => ⟨rfl, rfl⟩
  used := fun _ _ h => by cases h

omit [DecidableEq ι] in
/-- Two objects have different lines. -/
theorem Sound.id_eq (h : s.Sound) {id id' : ι} {o o' : InterruptIn β} (ho : o ∈ s.interruptIn id)
    (ho' : o' ∈ s.interruptIn id') (hline : o.gpio_irq.pin.pin = o'.gpio_irq.pin.pin) :
    id = id' := by
  have hentry := (h.used id o ho).1
  rw [hline, (h.used id' o' ho').1] at hentry
  simp only [Prod.mk.injEq, Option.some.injEq] at hentry
  exact hentry.2.1.symm

omit [DecidableEq ι] in
/-- What the levels, the flags and the world are does not matter. -/
theorem Sound.exti (h : s.Sound) (x : Exti) (hx : x.config = s.exti.config) (world : γ) :
    ({ s with exti := x, world := world } : Interrupts ι β γ).Sound where
  error := h.error
  unused := fun line hline => by
    obtain ⟨hmask, hconfig⟩ := h.unused line hline
    exact ⟨hmask, (congrArg Prod.snd (congrFun hx line)).trans hconfig⟩
  used := h.used

/-! ### The functions of an object -/

theorem mem_update {f : ι → Option (InterruptIn β)} {id id' : ι} {v : Option (InterruptIn β)}
    {o : InterruptIn β} :
    o ∈ Function.update f id v id' ↔ id' = id ∧ o ∈ v ∨ id' ≠ id ∧ o ∈ f id' := by
  by_cases h : id' = id
  · subst h
    simp
  · simp [h]

theorem modify_eq {id : ι} {o : InterruptIn β} (ho : o ∈ s.interruptIn id)
    (f : InterruptIn β → Exti → InterruptIn β × Exti) : s.modify id f =
      { s with
        interruptIn := Function.update s.interruptIn id (some (f o s.exti).1)
        exti := (f o s.exti).2 } := by
  unfold modify
  rw [Option.mem_def.1 ho]

theorem mem_modify {id : ι} {f : InterruptIn β → Exti → InterruptIn β × Exti} {o' : InterruptIn β}
    (ho' : o' ∈ (s.modify id f).interruptIn id) :
    ∃ o ∈ s.interruptIn id, o' = (f o s.exti).1 := by
  cases ho : s.interruptIn id with
  | none => simp [modify, ho] at ho'
  | some o =>
    rw [modify_eq ho] at ho'
    obtain ⟨-, ho'⟩ | ⟨hid, -⟩ := mem_update.1 ho'
    · exact ⟨o, rfl, (Option.some.inj ho').symm⟩
    · exact absurd rfl hid

theorem destroy_eq {id : ι} {o : InterruptIn β} (ho : o ∈ s.interruptIn id) : s.destroy id =
    { s.gpio_irq_free o.gpio_irq with
      interruptIn := Function.update s.interruptIn id none } := by
  unfold Interrupts.destroy
  rw [Option.mem_def.1 ho]

theorem Sound.construct (h : s.Sound) {id : ι} {pin : PinName} (hid : s.interruptIn id = none)
    (hpin : s.Unused pin.pin) : (s.construct id pin).Sound := by
  have hentry : entry (s.construct id pin).channels =
      Function.update (entry s.channels) pin.pin (true, some id, pin) := entry_set ..
  have hobj : (s.construct id pin).interruptIn = Function.update s.interruptIn id
      (some ⟨⟨(pin_lines_desc pin.pin).irq_index, false, false, pin⟩, none, none⟩) := rfl
  refine ⟨h.error, fun line hline => ?_, fun id' o ho => ?_⟩
  · simp only [Unused, hobj, mem_update] at hline
    have hne : line ≠ pin.pin := Ne.symm (hline id _ (Or.inl ⟨rfl, rfl⟩))
    have hold : s.Unused line := by
      intro id' o ho
      refine hline id' o (Or.inr ⟨?_, ho⟩)
      rintro rfl
      rw [hid] at ho
      cases ho
    obtain ⟨hmask, hconfig⟩ := h.unused line hold
    rw [hentry, Function.update_of_ne hne]
    exact ⟨hmask, (congrArg Prod.snd (GpioIrq.config_enable hne)).trans hconfig⟩
  · rw [hobj, mem_update] at ho
    rw [hentry]
    rcases ho with ⟨rfl, ho⟩ | ⟨-, ho⟩
    · obtain rfl := Option.some.inj ho
      exact ⟨Function.update_self .., rfl⟩
    · rw [Function.update_of_ne (hpin id' o ho)]
      exact h.used id' o ho

theorem Sound.destroy (h : s.Sound) {id : ι} {o : InterruptIn β} (ho : o ∈ s.interruptIn id) :
    (s.destroy id).Sound := by
  rw [destroy_eq ho]
  obtain ⟨-, hirq⟩ := h.used id o ho
  have hentry : entry (s.gpio_irq_free o.gpio_irq).channels =
      Function.update (entry s.channels) o.gpio_irq.pin.pin (false, none, ⟨0, 0⟩) := by
    unfold gpio_irq_free
    rw [hirq]
    exact entry_set ..
  refine ⟨h.error, fun line hline => ?_, fun id' o' ho' => ?_⟩
  · simp only [Unused, mem_update] at hline
    simp only [hentry]
    by_cases hpin : line = o.gpio_irq.pin.pin
    · subst hpin
      exact ⟨by simp, by simp [gpio_irq_free, GpioIrq.gpio_irq_disable, Exti.config]⟩
    · have hold : s.Unused line := by
        intro id' o' ho'
        by_cases hid' : id' = id
        · subst hid'
          obtain rfl := Option.mem_unique ho ho'
          exact Ne.symm hpin
        · exact hline id' o' (Or.inr ⟨hid', ho'⟩)
      obtain ⟨hmask, hconfig⟩ := h.unused line hold
      rw [Function.update_of_ne hpin]
      exact ⟨hmask, (congrArg Prod.snd (GpioIrq.config_disable hpin)).trans hconfig⟩
  · simp only [mem_update] at ho'
    simp only [hentry]
    obtain ⟨-, ho'⟩ | ⟨hid', ho'⟩ := ho'
    · cases ho'
    · have hpin : o'.gpio_irq.pin.pin ≠ o.gpio_irq.pin.pin := fun hpin =>
        hid' (h.id_eq ho' ho hpin)
      rw [Function.update_of_ne hpin]
      exact h.used id' o' ho'

/-- The other functions keep the object on its line, and change no other line. -/
theorem Sound.modify (h : s.Sound) {id : ι} {o : InterruptIn β} (ho : o ∈ s.interruptIn id)
    {f : InterruptIn β → Exti → InterruptIn β × Exti}
    (hpin : (f o s.exti).1.gpio_irq.pin = o.gpio_irq.pin)
    (hirq : (f o s.exti).1.gpio_irq.irq_index = o.gpio_irq.irq_index)
    (hconfig : ∀ line, line ≠ o.gpio_irq.pin.pin →
      (f o s.exti).2.config line = s.exti.config line) :
    (s.modify id f).Sound := by
  rw [modify_eq ho]
  refine ⟨h.error, fun line hline => ?_, fun id' o' ho' => ?_⟩
  · simp only [Unused, mem_update] at hline
    have hne : line ≠ o.gpio_irq.pin.pin := by
      have hself := hline id _ (Or.inl ⟨rfl, rfl⟩)
      rw [hpin] at hself
      exact hself.symm
    have hold : s.Unused line := by
      intro id' o' ho'
      by_cases hid' : id' = id
      · subst hid'
        obtain rfl := Option.mem_unique ho ho'
        exact hne.symm
      · exact hline id' o' (Or.inr ⟨hid', ho'⟩)
    obtain ⟨hmask, hold⟩ := h.unused line hold
    exact ⟨hmask, (congrArg Prod.snd (hconfig line hne)).trans hold⟩
  · simp only [mem_update] at ho'
    obtain ⟨rfl, ho'⟩ | ⟨-, ho'⟩ := ho'
    · obtain rfl := Option.some.inj ho'
      rw [hpin, hirq]
      exact h.used id' o ho
    · exact h.used id' o' ho'

theorem Sound.call (h : s.Sound) (id : ι) {c : Call β} (hc : s.Proper (.call id c)) :
    (s.call id c).Sound := by
  cases c with
  | construct pin => exact h.construct hc.1 hc.2
  | destroy =>
    obtain ⟨o, ho⟩ := Option.isSome_iff_exists.1 hc
    exact h.destroy ho
  | rise func =>
    obtain ⟨o, ho⟩ := Option.isSome_iff_exists.1 hc
    rw [Interrupts.call, Interrupts.rise]
    exact h.modify ho rfl rfl fun _ hline => GpioIrq.config_set .IRQ_RISE _ hline
  | fall func =>
    obtain ⟨o, ho⟩ := Option.isSome_iff_exists.1 hc
    rw [Interrupts.call, Interrupts.fall]
    exact h.modify ho rfl rfl fun _ hline => GpioIrq.config_set .IRQ_FALL _ hline
  | enable_irq =>
    obtain ⟨o, ho⟩ := Option.isSome_iff_exists.1 hc
    rw [Interrupts.call, Interrupts.enable_irq]
    exact h.modify ho rfl rfl fun _ hline => GpioIrq.config_enable hline
  | disable_irq =>
    obtain ⟨o, ho⟩ := Option.isSome_iff_exists.1 hc
    rw [Interrupts.call, Interrupts.disable_irq]
    exact h.modify ho rfl rfl fun _ hline => GpioIrq.config_disable hline

/-- An object's functions leave the other objects alone. -/
theorem call_interruptIn (s : Interrupts ι β γ) {id id' : ι} (hid : id' ≠ id) (c : Call β) :
    (s.call id c).interruptIn id' = s.interruptIn id' := by
  have hmodify : ∀ f, (s.modify id f).interruptIn id' = s.interruptIn id' := by
    intro f
    cases ho : s.interruptIn id with
    | none => simp [modify, ho]
    | some o =>
      rw [modify_eq ho]
      exact Function.update_of_ne hid _ _
  cases c with
  | construct pin => exact Function.update_of_ne hid _ _
  | destroy =>
    cases ho : s.interruptIn id with
    | none => simp [Interrupts.call, Interrupts.destroy, ho]
    | some o =>
      rw [Interrupts.call, destroy_eq ho]
      exact Function.update_of_ne hid _ _
  | _ => exact hmodify _

/-- They leave the lines of the other objects alone. -/
theorem Sound.call_config (h : s.Sound) {id id' : ι} {c : Call β} (hc : s.Proper (.call id c))
    {o' : InterruptIn β} (ho' : o' ∈ s.interruptIn id') (hid : id' ≠ id) :
    (s.call id c).exti.config o'.gpio_irq.pin.pin = s.exti.config o'.gpio_irq.pin.pin := by
  have hline : ∀ o ∈ s.interruptIn id, o'.gpio_irq.pin.pin ≠ o.gpio_irq.pin.pin := fun o ho hpin =>
    hid (h.id_eq ho' ho hpin)
  cases c with
  | construct pin => exact GpioIrq.config_enable (hc.2 id' o' ho')
  | destroy =>
    obtain ⟨o, ho⟩ := Option.isSome_iff_exists.1 hc
    rw [Interrupts.call, destroy_eq ho]
    exact GpioIrq.config_disable (hline o ho)
  | rise func =>
    obtain ⟨o, ho⟩ := Option.isSome_iff_exists.1 hc
    rw [Interrupts.call, Interrupts.rise, modify_eq ho]
    exact GpioIrq.config_set .IRQ_RISE _ (hline o ho)
  | fall func =>
    obtain ⟨o, ho⟩ := Option.isSome_iff_exists.1 hc
    rw [Interrupts.call, Interrupts.fall, modify_eq ho]
    exact GpioIrq.config_set .IRQ_FALL _ (hline o ho)
  | enable_irq =>
    obtain ⟨o, ho⟩ := Option.isSome_iff_exists.1 hc
    rw [Interrupts.call, Interrupts.enable_irq, modify_eq ho]
    exact GpioIrq.config_enable (hline o ho)
  | disable_irq =>
    obtain ⟨o, ho⟩ := Option.isSome_iff_exists.1 hc
    rw [Interrupts.call, Interrupts.disable_irq, modify_eq ho]
    exact GpioIrq.config_disable (hline o ho)

/-- The callbacks of an object are those it had and the one it is given. -/
theorem call_callback {id : ι} {c : Call β} {o' : InterruptIn β}
    (ho' : o' ∈ (s.call id c).interruptIn id) {level : Bool} {func : β}
    (hfunc : func ∈ o'.callback level) :
    (∃ o ∈ s.interruptIn id, func ∈ o.callback level) ∨
      c = .rise (some func) ∨ c = .fall (some func) := by
  cases c with
  | construct pin =>
    obtain ⟨-, ho'⟩ | ⟨hid, -⟩ := mem_update.1 ho'
    · obtain rfl := Option.some.inj ho'
      cases level <;> cases hfunc
    · exact absurd rfl hid
  | destroy =>
    cases ho : s.interruptIn id with
    | none => simp [Interrupts.call, Interrupts.destroy, ho] at ho'
    | some o => simp [Interrupts.call, destroy_eq ho] at ho'
  | rise f =>
    obtain ⟨o, ho, rfl⟩ := mem_modify ho'
    cases level with
    | true => exact Or.inr (Or.inl (congrArg _ hfunc))
    | false => exact Or.inl ⟨o, ho, hfunc⟩
  | fall f =>
    obtain ⟨o, ho, rfl⟩ := mem_modify ho'
    cases level with
    | true => exact Or.inl ⟨o, ho, hfunc⟩
    | false => exact Or.inr (Or.inr (congrArg _ hfunc))
  | enable_irq =>
    obtain ⟨_, ho, rfl⟩ := mem_modify ho'
    exact Or.inl ⟨_, ho, hfunc⟩
  | disable_irq =>
    obtain ⟨_, ho, rfl⟩ := mem_modify ho'
    exact Or.inl ⟨_, ho, hfunc⟩

/-! ### The interrupt -/

/-- The line is flagged and in use. -/
def flagged (s : Interrupts ι β γ) (line : Fin 16) : Bool :=
  (entry s.channels line).1 && s.exti.PR line

/-- The line that an interrupt of the vector serves. -/
def next (s : Interrupts ι β γ) (irq_index : ℕ) : Option (Fin 16) :=
  (lines irq_index).find? s.flagged

/-- The object `o` is served. -/
def serve (code : β → γ → γ) (during : List PinName) (s : Interrupts ι β γ) (o : InterruptIn β) :
    Interrupts ι β γ :=
  let x := exec Exti.edge (s.exti.clearFlag o.gpio_irq.pin.pin) during
  { s with
    exti := x
    world := (o.callback (x.IDR o.gpio_irq.pin)).elim s.world fun func => code func s.world }

omit [DecidableEq ι] in
theorem Sound.exists_of_mask (h : s.Sound) {line : Fin 16}
    (hmask : (entry s.channels line).1 = true) :
    ∃ id, ∃ o ∈ s.interruptIn id, o.gpio_irq.pin.pin = line := by
  refine not_unused fun hline => ?_
  rw [(h.unused line hline).1] at hmask
  cases hmask

omit [DecidableEq ι] in
theorem handle_cons (during : List PinName) (s : Interrupts ι β γ) (line : Fin 16) (rest : List ℕ) :
    s.handle code during (pin_lines_desc line).irq_index ((pin_lines_desc line).gpio_idx :: rest) =
      let (mask, id, pin) := entry s.channels line
      if mask ∧ s.exti.PR pin.pin then
        let s := { s with exti := s.exti.clearFlag pin.pin }
        match id with
        | none => s.handle code during (pin_lines_desc line).irq_index rest
        | some id =>
          let s := { s with exti := exec Exti.edge s.exti during }
          if s.exti.IDR pin then s._irq_handler code id .IRQ_RISE
          else s._irq_handler code id .IRQ_FALL
      else s.handle code during (pin_lines_desc line).irq_index rest := rfl

omit [DecidableEq ι] in
/-- The loop serves the first of the lines that is flagged. -/
theorem Sound.handle_eq (h : s.Sound) (during : List PinName) {irq_index : ℕ} {ls : List (Fin 16)}
    (hls : ∀ line ∈ ls, (pin_lines_desc line).irq_index = irq_index) {id : ι} {o : InterruptIn β}
    (ho : o ∈ s.interruptIn id) (hfind : ls.find? s.flagged = some o.gpio_irq.pin.pin) :
    s.handle code during irq_index (ls.map fun line => (pin_lines_desc line).gpio_idx) =
      s.serve code during o := by
  induction ls with
  | nil => cases hfind
  | cons line ls ih =>
    obtain rfl := hls line (by simp)
    rw [List.map_cons, handle_cons]
    cases hflag : s.flagged line with
    | true =>
      rw [List.find?_cons_of_pos hflag] at hfind
      obtain rfl := Option.some.inj hfind
      obtain ⟨hentry, -⟩ := h.used id o ho
      have hPR : s.exti.PR o.gpio_irq.pin.pin = true := by simpa [flagged, hentry] using hflag
      simp only [hentry, hPR, and_self, if_true, _irq_handler, Option.mem_def.1 ho]
      simp only [serve, InterruptIn.callback]
      split_ifs
      · cases o._rise <;> rfl
      · cases o._fall <;> rfl
    | false =>
      rw [List.find?_cons_of_neg (by simp [hflag])] at hfind
      have hrest := ih (fun l hl => hls l (by simp [hl])) hfind
      rcases hentry : entry s.channels line with ⟨mask, id', pin⟩
      have hskip : ¬ (mask = true ∧ s.exti.PR pin.pin = true) := by
        rintro ⟨rfl, hPR⟩
        obtain ⟨id'', o', ho', rfl⟩ := h.exists_of_mask (congrArg Prod.fst hentry)
        rw [(h.used id'' o' ho').1] at hentry
        simp only [Prod.mk.injEq] at hentry
        obtain ⟨-, -, rfl⟩ := hentry
        simp [flagged, (h.used id'' o' ho').1, hPR] at hflag
      simp only [hskip, if_false]
      exact hrest

omit [DecidableEq ι] in
/-- **An interrupt serves the first flagged line of its vector**, whose object exists. -/
theorem Sound.interrupt_spec (h : s.Sound) {irq_index : ℕ} (hp : s.exti.Asserted irq_index)
    (code : β → γ → γ) (during : List PinName) :
    ∃ id, ∃ o ∈ s.interruptIn id, s.next irq_index = some o.gpio_irq.pin.pin ∧
      s.exti.PR o.gpio_irq.pin.pin = true ∧
      s.handle_interrupt_in code during irq_index = s.serve code during o := by
  obtain ⟨-, line, hirq, himr, hPR⟩ := hp
  have hmask : (entry s.channels line).1 = true := by
    obtain ⟨id, o, ho, rfl⟩ : ∃ id, ∃ o ∈ s.interruptIn id, o.gpio_irq.pin.pin = line := by
      refine not_unused fun hline => ?_
      have himr' : s.exti.IMR line = false := congrArg Prod.fst (h.unused line hline).2
      rw [himr'] at himr
      cases himr
    rw [(h.used id o ho).1]
  obtain ⟨line', hnext⟩ := Option.isSome_iff_exists.1 (List.find?_isSome.2
    ⟨line, mem_lines.2 hirq, by simp [flagged, hmask, hPR]⟩ : (s.next irq_index).isSome)
  have hflag := List.find?_some hnext
  obtain ⟨hmask', hPR'⟩ : (entry s.channels line').1 = true ∧ s.exti.PR line' = true := by
    simpa [flagged] using hflag
  obtain ⟨id, o, ho, rfl⟩ := h.exists_of_mask hmask'
  refine ⟨id, o, ho, hnext, hPR', ?_⟩
  rw [handle_interrupt_in, ← map_lines]
  exact h.handle_eq during (fun line hline => mem_lines.1 hline) ho hnext

/-! ### Runs -/

theorem step_eq (h : s.error = false) (e : Occurrence ι β) : step code s e =
    match e with
    | .edge pin => { s with exti := s.exti.edge pin }
    | .interrupt irq_index during => s.handle_interrupt_in code during irq_index
    | .call id c => s.call id c
    | .act func => { s with world := code func s.world } := if_neg (by simp [h])

theorem Sound.step (h : s.Sound) {e : Occurrence ι β} (he : s.Proper e) :
    (step code s e).Sound := by
  rw [step_eq h.error]
  cases e with
  | edge pin => exact h.exti (s.exti.edge pin) rfl s.world
  | interrupt irq_index during =>
    obtain ⟨id, o, -, -, -, hserve⟩ := h.interrupt_spec he code during
    show (s.handle_interrupt_in code during irq_index).Sound
    rw [hserve]
    refine h.exti _ ?_ _
    rw [Exti.config_exec_edge]
    rfl
  | call id c => exact h.call id he
  | act func => exact h.exti s.exti rfl (code func s.world)

/-- What happens to the flags: the edges that are latched, and the lines that are served. -/
def flags (s : Interrupts ι β γ) : Occurrence ι β → List (Flags.Event (Fin 16))
  | .edge pin => s.exti.raised pin
  | .interrupt irq_index during =>
    match s.next irq_index with
    | none => []
    | some line => .serve line :: image Exti.edge Exti.raised (s.exti.clearFlag line) during
  | .call _ _ => []
  | .act _ => []

/-- Calls change neither the flags nor the world. -/
theorem call_frame (s : Interrupts ι β γ) (id : ι) (c : Call β) :
    (s.call id c).exti.PR = s.exti.PR ∧ (s.call id c).world = s.world := by
  have hmodify : ∀ f : InterruptIn β → Exti → InterruptIn β × Exti,
      (∀ o x, (f o x).2.PR = x.PR) →
        (s.modify id f).exti.PR = s.exti.PR ∧ (s.modify id f).world = s.world := by
    intro f hf
    cases ho : s.interruptIn id with
    | none => simp [modify, ho]
    | some o =>
      rw [modify_eq ho]
      exact ⟨hf o s.exti, rfl⟩
  cases c with
  | construct pin => exact ⟨rfl, rfl⟩
  | destroy =>
    cases ho : s.interruptIn id with
    | none => simp [Interrupts.call, Interrupts.destroy, ho]
    | some o =>
      rw [Interrupts.call, destroy_eq ho]
      exact ⟨rfl, rfl⟩
  | rise func => exact hmodify _ fun _ _ => rfl
  | fall func => exact hmodify _ fun _ _ => rfl
  | enable_irq => exact hmodify _ fun _ _ => rfl
  | disable_irq => exact hmodify _ fun _ _ => rfl

/-- The flags of the EXTI are a bank of flags, of which only raised ones are served. -/
theorem Sound.step_flags (h : s.Sound) {e : Occurrence ι β} (he : s.Proper e) :
    (Interrupts.step code s e).exti.PR = exec Flags.step s.exti.PR (s.flags e) ∧
      AllSteps Flags.step Flags.Waits s.exti.PR (s.flags e) := by
  rw [step_eq h.error]
  cases e with
  | edge pin => exact ⟨s.exti.edge_PR pin, s.exti.waits_raised pin⟩
  | interrupt irq_index during =>
    obtain ⟨id, o, -, hnext, hPR, hserve⟩ := h.interrupt_spec he code during
    have hedges := (s.exti.clearFlag o.gpio_irq.pin.pin).exec_edge_PR during
    have hwaits := (s.exti.clearFlag o.gpio_irq.pin.pin).waits_image_raised during
    simp only [flags, hnext, hserve, serve]
    exact ⟨hedges, hPR, hwaits⟩
  | call id c => exact ⟨(call_frame s id c).1, trivial⟩
  | act func => exact ⟨rfl, trivial⟩

variable {es es' : List (Occurrence ι β)}

theorem Sound.exec (h : s.Sound) (hes : AllSteps (Interrupts.step code) Proper s es) :
    (exec (Interrupts.step code) s es).Sound :=
  hes.invariant h fun _ _ ht he => ht.step he

theorem Sound.exec_flags (h : s.Sound) (hes : AllSteps (Interrupts.step code) Proper s es) :
    (Runs.exec (Interrupts.step code) s es).exti.PR =
        Runs.exec Flags.step s.exti.PR (image (Interrupts.step code) flags s es) ∧
      AllSteps Flags.step Flags.Waits s.exti.PR (image (Interrupts.step code) flags s es) := by
  induction es generalizing s with
  | nil => exact ⟨rfl, trivial⟩
  | cons e es ih =>
    obtain ⟨hstep, hwaits⟩ : (Interrupts.step code s e).exti.PR = _ ∧ _ := h.step_flags hes.1
    obtain ⟨hrest, hwaits'⟩ := ih (h.step hes.1) hes.2
    rw [hstep] at hrest hwaits'
    rw [image, exec_append, allSteps_append]
    exact ⟨hrest, hwaits, hwaits'⟩

/-! ### What holds in every run -/

omit [DecidableEq ι] in
theorem Sound.flagged_eq (h : s.Sound) {id : ι} {o : InterruptIn β} (ho : o ∈ s.interruptIn id) :
    s.flagged o.gpio_irq.pin.pin = s.exti.PR o.gpio_irq.pin.pin := by
  simp [flagged, (h.used id o ho).1]

variable {IDR : PinName → Bool} {world : γ}

/-- **No interrupt is spurious.**  Whenever a vector is asserted, its interrupt serves an object
that exists and whose line is flagged, and among the objects of the vector the one with the first
such line. -/
theorem served_of_run (hes : AllSteps (Interrupts.step code) Proper (reset IDR world) es)
    {irq_index : ℕ} (during : List PinName)
    (hp : (Runs.exec (Interrupts.step code) (reset IDR world : Interrupts ι β γ) es).exti.Asserted
      irq_index) :
    let s := Runs.exec (Interrupts.step code) (reset IDR world : Interrupts ι β γ) es
    s.error = false ∧ ∃ id, ∃ o ∈ s.interruptIn id,
      (pin_lines_desc o.gpio_irq.pin.pin).irq_index = irq_index ∧
      s.exti.PR o.gpio_irq.pin.pin = true ∧
      (∀ id', ∀ o' ∈ s.interruptIn id', (pin_lines_desc o'.gpio_irq.pin.pin).irq_index = irq_index →
        s.exti.PR o'.gpio_irq.pin.pin = true → o.gpio_irq.pin.pin ≤ o'.gpio_irq.pin.pin) ∧
      Interrupts.step code s (.interrupt irq_index during) = s.serve code during o := by
  intro s
  have h : s.Sound := (sound_reset IDR world).exec hes
  obtain ⟨id, o, ho, hnext, hPR, hserve⟩ := h.interrupt_spec hp code during
  refine ⟨h.error, id, o, ho, mem_lines.1 (List.mem_of_find?_eq_some hnext), hPR, ?_, ?_⟩
  · intro id' o' ho' hirq hPR'
    exact le_of_find? (lines_sorted irq_index) hnext (mem_lines.2 hirq)
      ((h.flagged_eq ho').trans hPR')
  · rw [step_eq h.error]
    exact hserve

/-- The two pins of the encoder. -/
theorem served_of_run_applies :
    let es : List (Occurrence Bool Unit) := [.call false (.construct ⟨0, 9⟩),
      .call true (.construct ⟨0, 8⟩), .call false (.rise (some ())), .call true (.rise (some ())),
      .edge ⟨0, 9⟩, .edge ⟨0, 8⟩]
    let s := Runs.exec (Interrupts.step fun _ w => w + 1)
      (reset (fun _ => false) 0 : Interrupts Bool Unit ℕ) es
    s.error = false ∧ ∃ id, ∃ o ∈ s.interruptIn id,
      (pin_lines_desc o.gpio_irq.pin.pin).irq_index = 5 ∧ s.exti.PR o.gpio_irq.pin.pin = true ∧
      (∀ id', ∀ o' ∈ s.interruptIn id', (pin_lines_desc o'.gpio_irq.pin.pin).irq_index = 5 →
        s.exti.PR o'.gpio_irq.pin.pin = true → o.gpio_irq.pin.pin ≤ o'.gpio_irq.pin.pin) ∧
      Interrupts.step (fun _ w => w + 1) s (.interrupt 5 [⟨0, 8⟩]) =
        s.serve (fun _ w => w + 1) [⟨0, 8⟩] o :=
  served_of_run (by decide +kernel) [⟨0, 8⟩] (by decide +kernel)

/-- An object that is destroyed takes the line of another one along. -/
example : (Runs.exec (Interrupts.step fun _ w => w + 1)
    (reset (fun _ => false) 0 : Interrupts Bool Unit ℕ)
    [.call false (.construct ⟨0, 9⟩), .call true (.construct ⟨1, 9⟩), .call false .destroy,
      .call true .enable_irq, .call true (.rise (some ())), .edge ⟨1, 9⟩,
      .interrupt 5 []]).error = true := by
  decide +kernel

/-- **Every edge is accounted for.**  On each line the edges that the EXTI has latched are those
that were served, those that found the flag raised, and the one that waits. -/
theorem edges_of_run (hes : AllSteps (Interrupts.step code) Proper (reset IDR world) es)
    (line : Fin 16) :
    let s : Interrupts ι β γ := reset IDR world
    let fs := image (Interrupts.step code) flags s es
    fs.count (.raise line) = fs.count (.serve line) +
      count Flags.step (Flags.Merges line) s.exti.PR fs +
        ((Runs.exec (Interrupts.step code) s es).exti.PR line).toNat := by
  intro s fs
  obtain ⟨hPR, hwaits⟩ := (sound_reset IDR world).exec_flags hes
  have hledger := Flags.ledger hwaits line
  rw [← hPR] at hledger
  simpa [s, fs, reset] using hledger

theorem edges_of_run_applies :
    let es : List (Occurrence Bool Unit) := [.call false (.construct ⟨0, 9⟩),
      .call false (.rise (some ())), .call false (.fall (some ())), .edge ⟨0, 9⟩, .edge ⟨0, 9⟩,
      .interrupt 5 [⟨0, 9⟩]]
    let s : Interrupts Bool Unit ℕ := reset (fun _ => false) 0
    let fs := image (Interrupts.step fun _ w => w + 1) flags s es
    fs.count (.raise 9) = fs.count (.serve 9) +
      count Flags.step (Flags.Merges 9) s.exti.PR fs +
        ((Runs.exec (Interrupts.step fun _ w => w + 1) s es).exti.PR 9).toNat :=
  edges_of_run (by decide +kernel) 9

/-- The occurrence is an interrupt of the vector. -/
def isInterrupt (irq_index : ℕ) : Occurrence ι β → Bool
  | .interrupt k _ => k = irq_index
  | _ => false

/-- The lines of the same vector that come before a line. -/
def before (line : Fin 16) : Finset (Fin 16) :=
  Finset.univ.filter fun l =>
    (pin_lines_desc l).irq_index = (pin_lines_desc line).irq_index ∧ l < line

/-- An object that is not destroyed stays on its pin. -/
theorem Sound.keeps (h : s.Sound) {e : Occurrence ι β} (he : s.Proper e) {id : ι}
    {o : InterruptIn β} (ho : o ∈ s.interruptIn id) (hdestroy : e ≠ .call id .destroy) :
    ∃ o' ∈ (Interrupts.step code s e).interruptIn id, o'.gpio_irq.pin = o.gpio_irq.pin := by
  rw [step_eq h.error]
  cases e with
  | edge pin => exact ⟨o, ho, rfl⟩
  | interrupt irq_index during =>
    obtain ⟨id', o', -, -, -, hserve⟩ := h.interrupt_spec he code during
    show ∃ o' ∈ (s.handle_interrupt_in code during irq_index).interruptIn id, _
    rw [hserve]
    exact ⟨o, ho, rfl⟩
  | act func => exact ⟨o, ho, rfl⟩
  | call id' c =>
    by_cases hid : id = id'
    · subst hid
      have hmem : ∀ v, v ∈ Function.update s.interruptIn id (some v) id := fun v =>
        mem_update.2 (Or.inl ⟨rfl, rfl⟩)
      cases c with
      | construct pin => cases (Option.mem_def.1 ho).symm.trans he.1
      | destroy => exact absurd rfl hdestroy
      | _ =>
        simp only [Interrupts.call, Interrupts.rise, Interrupts.fall, Interrupts.enable_irq,
          Interrupts.disable_irq, modify_eq ho]
        exact ⟨_, hmem _, rfl⟩
    · exact ⟨o, (call_interruptIn s hid c).symm ▸ ho, rfl⟩

/-- While a line waits, every interrupt of its vector serves a line before it. -/
theorem Sound.interrupts_le (h : s.Sound) (hes : AllSteps (Interrupts.step code) Proper s es)
    {id : ι} {o : InterruptIn β} (ho : o ∈ s.interruptIn id)
    (hPR : s.exti.PR o.gpio_irq.pin.pin = true) (hdestroy : .call id .destroy ∉ es)
    (hserve : .serve o.gpio_irq.pin.pin ∉ image (Interrupts.step code) flags s es) :
    es.countP (isInterrupt (pin_lines_desc o.gpio_irq.pin.pin).irq_index) ≤
      (image (Interrupts.step code) flags s es).countP
        (Flags.Event.serves (before o.gpio_irq.pin.pin)) := by
  induction es generalizing s o with
  | nil => simp
  | cons e es ih =>
    obtain ⟨he, hdestroy⟩ := not_or.1 (List.mem_cons.not.1 hdestroy)
    obtain ⟨hnow, hserve⟩ := not_or.1 (List.mem_append.not.1 hserve)
    obtain ⟨o', ho', hpin⟩ : ∃ o' ∈ (Interrupts.step code s e).interruptIn id, _ :=
      h.keeps hes.1 ho (Ne.symm he)
    have hPR' : (Interrupts.step code s e).exti.PR o'.gpio_irq.pin.pin = true := by
      rw [hpin, (h.step_flags hes.1).1]
      exact Flags.stays hPR hnow
    have hrest := ih (h.step hes.1) hes.2 ho' hPR' hdestroy (by rwa [hpin])
    rw [hpin] at hrest
    have hfirst : (if isInterrupt (pin_lines_desc o.gpio_irq.pin.pin).irq_index e then 1 else 0) ≤
        (s.flags e).countP (Flags.Event.serves (before o.gpio_irq.pin.pin)) := by
      split_ifs with hint
      · cases e with
        | interrupt irq_index during =>
          obtain rfl : irq_index = (pin_lines_desc o.gpio_irq.pin.pin).irq_index := by
            simpa [isInterrupt] using hint
          obtain ⟨id', o₁, ho₁, hnext, -, -⟩ := h.interrupt_spec hes.1 code during
          have hle := le_of_find? (lines_sorted _) hnext (mem_lines.2 rfl)
            ((h.flagged_eq ho).trans hPR)
          simp only [flags, hnext, List.mem_cons, not_or] at hnow ⊢
          have hne : o₁.gpio_irq.pin.pin ≠ o.gpio_irq.pin.pin := by
            intro heq
            exact hnow.1 (by rw [heq])
          refine List.countP_pos_iff.2 ⟨_, List.mem_cons_self, ?_⟩
          have hvector := mem_lines.1 (List.mem_of_find?_eq_some hnext)
          simpa [Flags.Event.serves, before, hvector] using lt_of_le_of_ne hle hne
        | _ => cases hint
      · exact Nat.zero_le _
    rw [image, List.countP_append, List.countP_cons]
    omega

/-- **A waiting line is not overtaken without end.**  While it waits, its vector is served no more
often than lines before it waited at the beginning and had edges since. -/
theorem overtaken_le (hes : AllSteps (Interrupts.step code) Proper (reset IDR world) (es ++ es'))
    {i : ι} {o : InterruptIn β} :
    let s := Runs.exec (Interrupts.step code) (reset IDR world : Interrupts ι β γ) es
    let line := o.gpio_irq.pin.pin
    let fs := image (Interrupts.step code) flags s es'
    o ∈ s.interruptIn i → s.exti.PR line = true → .call i .destroy ∉ es' → .serve line ∉ fs →
    es'.countP (isInterrupt (pin_lines_desc line).irq_index) ≤
      ∑ l ∈ before line, ((s.exti.PR l).toNat + fs.count (.raise l)) := by
  intro s line fs ho hPR hdestroy hserve
  obtain ⟨hes, hes'⟩ := allSteps_append.1 hes
  have h : s.Sound := (sound_reset IDR world).exec hes
  have hle := h.interrupts_le hes' ho hPR hdestroy hserve
  exact hle.trans (Flags.served_le (h.exec_flags hes').2 (before line))

/-- `PA_9` waits while `PA_8` is served. -/
theorem overtaken_le_applies :
    let es : List (Occurrence Bool Unit) := [.call false (.construct ⟨0, 9⟩),
      .call true (.construct ⟨0, 8⟩), .call false (.rise (some ())), .call true (.rise (some ())),
      .edge ⟨0, 9⟩, .edge ⟨0, 8⟩]
    let es' : List (Occurrence Bool Unit) := [.interrupt 5 [⟨0, 8⟩, ⟨0, 8⟩], .interrupt 5 []]
    let s := Runs.exec (Interrupts.step fun _ w => w + 1)
      (reset (fun _ => false) 0 : Interrupts Bool Unit ℕ) es
    let fs := image (Interrupts.step fun _ w => w + 1) flags s es'
    es'.countP (isInterrupt 5) ≤ ∑ l ∈ before 9, ((s.exti.PR l).toNat + fs.count (.raise l)) :=
  overtaken_le (i := false) (o := ⟨⟨5, true, false, ⟨0, 9⟩⟩, some (), none⟩) (by decide +kernel)
    (by decide +kernel) (by decide +kernel) (by decide +kernel) (by decide +kernel)

end Interrupts

end NucleoMotor
