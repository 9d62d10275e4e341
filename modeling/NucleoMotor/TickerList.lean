import NucleoMotor.TickerClock

/-!
# The list of the ticker's events

`Lists t order`: the linked list of `t` is the agenda `order`, in the order of the timestamps.
Inserting an event that is not listed places it in the agenda (`Lists.insert`), removing one erases
it (`Lists.remove`), and neither loop runs into a cycle.
-/

namespace NucleoMotor

namespace TickerData

variable {α : Type}

/-- The list holds the events `order`, by their timestamps, each with its own object. -/
structure Lists (t : TickerData α) (order : List α) : Prop where
  chain : Linked.Chain t.next t.head order
  ids : ∀ i ∈ order, (t.event i).id = i
  sorted : Agenda.Sorted t.timestamp order

/-- The clock is no concern of the list. -/
theorem Lists.clock {t : TickerData α} {order : List α} (h : t.Lists order) (clock : TickerClock) :
    ({ t with clock } : TickerData α).Lists order :=
  ⟨h.chain, h.ids, h.sorted⟩

theorem Lists.head_eq {t : TickerData α} {order : List α} (h : t.Lists order) :
    t.head = order.head? := h.chain.head?.symm

/-- The head comes off. -/
theorem Lists.drop {t : TickerData α} {p : α} {order : List α} (h : t.Lists (p :: order)) :
    (t.drop p).Lists order :=
  ⟨h.chain.2, fun i hi => h.ids i (List.mem_cons_of_mem p hi), h.sorted.tail⟩

section

variable [Fintype α]

theorem Lists.length_lt {t : TickerData α} {order : List α} (h : t.Lists order) :
    order.length < fuel α :=
  Nat.lt_succ_of_le h.chain.nodup.length_le_card

end

variable [DecidableEq α]

/-! ### Writes to the memory -/

section Memory

variable (t : TickerData α) (p : α) (q : Option α) (ts : ℕ)

theorem next_setNext : (t.setNext p q).next = Function.update t.next p q := by
  funext i
  by_cases hi : i = p
  · subst hi
    simp [next, setNext]
  · simp [next, setNext, hi]

theorem timestamp_setNext : (t.setNext p q).timestamp = t.timestamp := by
  funext i
  by_cases hi : i = p
  · subst hi
    simp [timestamp, setNext]
  · simp [timestamp, setNext, hi]

theorem id_setNext (i : α) : ((t.setNext p q).event i).id = (t.event i).id := by
  by_cases hi : i = p
  · subst hi
    simp [setNext]
  · simp [setNext, hi]

theorem next_write : (t.write p ts p).next = t.next := by
  funext i
  by_cases hi : i = p
  · subst hi
    simp [next, write]
  · simp [next, write, hi]

theorem timestamp_write : (t.write p ts p).timestamp = Function.update t.timestamp p ts := by
  funext i
  by_cases hi : i = p
  · subst hi
    simp [timestamp, write]
  · simp [timestamp, write, hi]

theorem id_write (i : α) : ((t.write p ts p).event i).id = if i = p then p else (t.event i).id := by
  by_cases hi : i = p
  · subst hi
    simp [write]
  · simp [write, hi]

end Memory

/-- An event linked before `l₂`, either first or after the last of `l₁`. -/
theorem link_spec {t : TickerData α} {obj : α} {l₁ l₂ : List α}
    (h : Linked.Chain t.next t.head (l₁ ++ l₂)) (hobj : obj ∉ l₁ ++ l₂) :
    let t' := t.link obj l₁.getLast? l₂.head?
    t'.timestamp = t.timestamp ∧ (∀ i, (t'.event i).id = (t.event i).id) ∧ t'.clock = t.clock ∧
      Linked.Chain t'.next t'.head (l₁ ++ obj :: l₂) := by
  intro t'
  rcases List.eq_nil_or_concat l₁ with rfl | ⟨l, b, rfl⟩
  · have ht' : t' = { t.setNext obj l₂.head? with head := some obj } := rfl
    rw [ht']
    refine ⟨t.timestamp_setNext obj _, t.id_setNext obj _, rfl, ?_⟩
    have hpush := h.push hobj
    rw [← h.head?] at hpush
    have hnext := t.next_setNext obj l₂.head?
    show Linked.Chain (t.setNext obj l₂.head?).next (some obj) (obj :: l₂)
    rw [hnext]
    exact hpush
  · have ht' : t' = (t.setNext obj l₂.head?).setNext b (some obj) := by
      simp only [t', link, List.concat_eq_append, List.getLast?_append, List.getLast?_singleton,
        Option.some_or]
    rw [ht']
    refine ⟨?_, ?_, rfl, ?_⟩
    · rw [timestamp_setNext, timestamp_setNext]
    · intro i
      rw [id_setNext, id_setNext]
    · rw [List.concat_eq_append, List.append_assoc] at h hobj
      rw [next_setNext, next_setNext, List.concat_eq_append, List.append_assoc]
      exact Linked.Chain.relink h hobj

variable [Fintype α]

/-- **Inserting an event places it in the agenda**, after all that are due no later. -/
theorem Lists.insert {t : TickerData α} {order : List α} (h : t.Lists order) {obj : α}
    (hobj : obj ∉ order) (ts : ℕ) :
    ∃ t', t.ticker_insert_event_us obj ts obj = some t' ∧
      t'.timestamp = Function.update t.timestamp obj ts ∧
      t'.Lists (Agenda.place t'.timestamp obj order) ∧
      t'.clock = t.clock.update_present_time.schedule_interrupt (t'.head.map t'.timestamp) := by
  let t₁ : TickerData α := { t with clock := t.clock.update_present_time }
  set w := t₁.write obj ts obj with hw
  have hts : w.timestamp = Function.update t.timestamp obj ts := t₁.timestamp_write obj ts
  have hobjts : w.timestamp obj = ts := by rw [hts, Function.update_self]
  have hsorted : Agenda.Sorted w.timestamp order :=
    h.sorted.congr fun i hi => by
      rw [hts, Function.update_of_ne (ne_of_mem_of_not_mem hi hobj)]
  have hplaced := hsorted.place obj
  obtain ⟨l₁, l₂, horder, hplace, h₁, h₂⟩ := Agenda.exists_place w.timestamp obj order
  have hchain : Linked.Chain w.next w.head (l₁ ++ l₂) := by
    rw [hw, next_write, ← horder]
    exact h.chain
  have hseek : Linked.seek w.next (fun p => ts < w.timestamp p) (fuel α) none w.head =
      some (l₁.getLast?, l₂.head?) := by
    have hlen := h.length_lt
    rw [horder, List.length_append] at hlen
    have hlook : _ → _ → Linked.seek w.next (fun p => ts < w.timestamp p) (fuel α) none w.head = _ :=
      fun hl hm => hchain.seek hl hm (by omega)
    rw [Option.or_none] at hlook
    refine hlook ?_ ?_
    · intro i hi
      simpa [← hobjts] using h₁ i hi
    · intro i hi
      simpa [← hobjts] using h₂ i hi
  obtain ⟨hlts, hlids, hlclock, hlchain⟩ := link_spec hchain (horder ▸ hobj)
  set linked := w.link obj l₁.getLast? l₂.head? with hlinked
  have hinsert : t.ticker_insert_event_us obj ts obj = some linked.schedule_interrupt := by
    unfold ticker_insert_event_us
    dsimp only
    rw [← hw, hseek]
  refine ⟨_, hinsert, hlts.trans hts, ?_, ?_⟩
  · show linked.schedule_interrupt.Lists (Agenda.place linked.timestamp obj order)
    refine Lists.clock ⟨?_, ?_, ?_⟩ _
    · rw [hlts, hplace]
      exact hlchain
    · intro i hi
      rw [hlids, hw, id_write]
      rcases Agenda.mem_place.1 hi with rfl | hi
      · exact if_pos rfl
      · rw [if_neg (ne_of_mem_of_not_mem hi hobj)]
        exact h.ids i hi
    · rw [hlts]
      exact hplaced
  · show linked.clock.schedule_interrupt _ = _
    rw [hlclock]
    rfl

/-- **Removing an event erases it from the agenda**, if it is there. -/
theorem Lists.remove {t : TickerData α} {order : List α} (h : t.Lists order) (obj : α) :
    ∃ t', t.ticker_remove_event obj = some t' ∧ t'.timestamp = t.timestamp ∧
      t'.Lists (order.erase obj) ∧
      t'.clock = if t.head = some obj then
        t.clock.schedule_interrupt (t'.head.map t'.timestamp) else t.clock := by
  have hsorted := h.sorted.erase obj
  by_cases hhead : t.head = some obj
  · obtain ⟨l, rfl⟩ : ∃ l, order = obj :: l := by
      have hfirst := h.head_eq.symm.trans hhead
      cases order with
      | nil => cases hfirst
      | cons i l => exact ⟨l, by rw [Option.some.inj hfirst]⟩
    refine ⟨(t.drop obj).schedule_interrupt, if_pos hhead, rfl, ?_, (if_pos hhead).symm⟩
    rw [List.erase_cons_head]
    exact h.drop.clock _
  · have hlen := h.length_lt
    by_cases hobj : obj ∈ order
    · obtain ⟨l, m, rfl⟩ := List.append_of_mem hobj
      rcases List.eq_nil_or_concat l with rfl | ⟨l, b, rfl⟩
      · exact absurd h.chain.1 hhead
      · have hnodup := h.chain.nodup
        rw [List.concat_eq_append, List.append_assoc] at h hlen hsorted hnodup ⊢
        have hnot : obj ∉ l ++ [b] := by
          rw [← List.append_assoc, List.nodup_append] at hnodup
          exact fun hmem => hnodup.2.2 obj hmem obj (by simp) rfl
        have herase : (l ++ ([b] ++ obj :: m)).erase obj = l ++ b :: m := by
          rw [← List.append_assoc, List.erase_append_right _ hnot, List.erase_cons_head,
            List.append_assoc]
          rfl
        rw [herase] at hsorted ⊢
        have hchain : Linked.Chain t.next t.head (l ++ b :: obj :: m) := h.chain
        have hseek : Linked.seek t.next (fun p => t.next p = some obj) (fuel α) none t.head = _ :=
          hchain.seek_before (by simp at hlen; omega)
        refine ⟨t.setNext b (t.next obj), ?_, t.timestamp_setNext b _, ⟨?_, ?_, ?_⟩, ?_⟩
        · rw [ticker_remove_event, if_neg hhead, hseek]
        · rw [next_setNext]
          exact hchain.unlink
        · intro i hi
          rw [id_setNext]
          refine h.ids i ?_
          simp only [List.mem_append, List.mem_cons] at hi ⊢
          tauto
        · rw [timestamp_setNext]
          exact hsorted
        · rw [if_neg hhead]
          rfl
    · obtain ⟨prev, hseek⟩ := h.chain.seek_absent hobj hlen
      refine ⟨t, ?_, rfl, ?_, (if_neg hhead).symm⟩
      · rw [ticker_remove_event, if_neg hhead, hseek]
      · rw [List.erase_of_not_mem hobj]
        exact h

end TickerData

end NucleoMotor
