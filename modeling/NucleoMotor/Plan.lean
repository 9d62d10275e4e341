import NucleoMotor.Ticker

/-!
# What tickers are for

A `Plan` is the agenda of the attached tickers: who is to be called next, and when.  It has no
counter and no linked list.  `Acts C` is what may happen to it when the commands that are run meet
`C`: time goes on, a command is run, or the first of the agenda is called when it is due.

* `Sound`: the agenda holds exactly the attached tickers, each once, in the order they are due,
  and each of them holds one lock of the sleep manager.
* `Timely`: no call is early, and calls are made in the order they were due.
* `Evolves.periodic`: a ticker that is left alone is called once in each period.
* `Evolves.fifo`: tickers due at the same time are called in the order they were set.
-/

namespace NucleoMotor

open Relation Agenda

structure Plan (α β γ : Type) where
  order : List α
  timestamp : α → ℕ
  ticker : α → Ticker β
  deep_sleep_lock : ℕ
  present_time : ℕ
  world : γ
  calls : List (TickerCall α)

namespace Plan

variable {α β γ : Type} [DecidableEq α]

/-- `i` is called for the first time `t` from now. -/
def attach (a : Plan α β γ) (i : α) (func : β) (t : ℕ) : Plan α β γ :=
  let timestamp := Function.update a.timestamp i (t + a.present_time)
  { a with
    timestamp
    order := place timestamp i (a.order.erase i)
    ticker := Function.update a.ticker i ⟨t, some func⟩
    deep_sleep_lock :=
      if (a.ticker i).function.isNone then a.deep_sleep_lock + 1 else a.deep_sleep_lock }

def detach (a : Plan α β γ) (i : α) : Plan α β γ :=
  { a with
    order := a.order.erase i
    ticker := Function.update a.ticker i { a.ticker i with function := none }
    deep_sleep_lock :=
      if (a.ticker i).function.isSome then a.deep_sleep_lock - 1 else a.deep_sleep_lock }

/-- `p` is called, and next when its delay has gone by since it was due. -/
def call (a : Plan α β γ) (p : α) : Plan α β γ :=
  let timestamp := Function.update a.timestamp p (a.timestamp p + (a.ticker p).delay)
  { a with
    timestamp
    order := place timestamp p (a.order.erase p)
    calls := ⟨p, a.timestamp p, a.present_time⟩ :: a.calls }

/-- What may happen when the commands that are run meet `C`. -/
inductive Acts (C : Command α β γ → Prop) : Plan α β γ → Plan α β γ → Prop
  | time (a : Plan α β γ) (now : ℕ) : a.present_time ≤ now → Acts C a { a with present_time := now }
  | attach (a : Plan α β γ) (i : α) (func : β) (t : ℕ) :
    C (.attach_us i func t) → Acts C a (a.attach i func t)
  | detach (a : Plan α β γ) (i : α) : C (.detach i) → Acts C a (a.detach i)
  | read (a : Plan α β γ) (f : ℕ → γ → γ) :
    C (.read f) → Acts C a { a with world := f a.present_time a.world }
  | act (a : Plan α β γ) (f : γ → γ) : C (.act f) → Acts C a { a with world := f a.world }
  | call (a : Plan α β γ) (p : α) :
    a.order.head? = some p → a.timestamp p ≤ a.present_time → Acts C a (a.call p)

def Evolves (C : Command α β γ → Prop) : Plan α β γ → Plan α β γ → Prop := ReflTransGen (Acts C)

variable {C : Command α β γ → Prop} {a a' a'' : Plan α β γ}

theorem Evolves.refl (a : Plan α β γ) : Evolves C a a := ReflTransGen.refl

theorem Evolves.single (h : Acts C a a') : Evolves C a a' := ReflTransGen.single h

theorem Evolves.trans (h : Evolves C a a') (h' : Evolves C a' a'') : Evolves C a a'' :=
  ReflTransGen.trans h h'

/-- What every action preserves holds however the plan evolves. -/
theorem Evolves.invariant {P : Plan α β γ → Prop} (h : Evolves C a a') (h0 : P a)
    (hacts : ∀ b b', P b → Acts C b b' → P b') : P a' := by
  induction h with
  | refl => exact h0
  | tail _ hact ih => exact hacts _ _ ih hact

/-! ### The agenda -/

/-- `base` is the number of locks that others hold. -/
structure Sound (base : ℕ) (a : Plan α β γ) : Prop where
  nodup : a.order.Nodup
  sorted : Sorted a.timestamp a.order
  attached : ∀ i, i ∈ a.order ↔ (a.ticker i).function.isSome
  lock : a.deep_sleep_lock = base + a.order.length

variable {base : ℕ}

/-- An agenda in which `i` is set anew. -/
theorem Sound.reset (h : a.Sound base) (i : α) (ts : ℕ) :
    let timestamp := Function.update a.timestamp i ts
    let order := place timestamp i (a.order.erase i)
    order.Nodup ∧ Sorted timestamp order ∧ (∀ j, j ∈ order ↔ j = i ∨ j ∈ a.order) ∧
      order.length = (a.order.erase i).length + 1 := by
  intro timestamp order
  have hi : i ∉ a.order.erase i := h.nodup.not_mem_erase
  have hsorted : Sorted timestamp (a.order.erase i) :=
    (h.sorted.erase i).congr fun j hj => Function.update_of_ne (ne_of_mem_of_not_mem hj hi) _ _
  refine ⟨nodup_place hi (h.nodup.erase i), hsorted.place i, fun j => ?_, ?_⟩
  · rw [mem_place, h.nodup.mem_erase_iff]
    tauto
  · exact (place_perm timestamp i _).length_eq

theorem Sound.attach (h : a.Sound base) (i : α) (func : β) (t : ℕ) :
    (a.attach i func t).Sound base := by
  obtain ⟨hnodup, hsorted, hmem, hlen⟩ := h.reset i (t + a.present_time)
  refine ⟨hnodup, hsorted, fun j => (hmem j).trans ?_, ?_⟩
  · by_cases hj : j = i
    · subst hj
      simp [Plan.attach]
    · simp [Plan.attach, hj, h.attached j]
  · show (if _ then _ else _) = base + (place _ i (a.order.erase i)).length
    rw [hlen, h.lock]
    by_cases hi : i ∈ a.order
    · have hsome := (h.attached i).1 hi
      have hpos := List.length_pos_of_mem hi
      rw [if_neg (by simpa [Option.isSome_iff_ne_none] using hsome), List.length_erase_of_mem hi]
      omega
    · have hnone : (a.ticker i).function.isNone := by
        rw [h.attached i] at hi
        simpa using hi
      rw [if_pos hnone, List.erase_of_not_mem hi]
      omega

theorem Sound.detach (h : a.Sound base) (i : α) : (a.detach i).Sound base := by
  refine ⟨h.nodup.erase i, h.sorted.erase i, fun j => ?_, ?_⟩
  · show j ∈ a.order.erase i ↔ _
    rw [h.nodup.mem_erase_iff]
    by_cases hj : j = i
    · subst hj
      simp [Plan.detach]
    · simp [Plan.detach, hj, h.attached j]
  · show (if _ then _ else _) = base + (a.order.erase i).length
    rw [h.lock]
    by_cases hi : i ∈ a.order
    · have hpos := List.length_pos_of_mem hi
      rw [if_pos ((h.attached i).1 hi), List.length_erase_of_mem hi]
      omega
    · have hnone : ¬ (a.ticker i).function.isSome := fun hsome => hi ((h.attached i).2 hsome)
      rw [if_neg hnone, List.erase_of_not_mem hi]

theorem Sound.call (h : a.Sound base) {p : α} (hp : p ∈ a.order) : (a.call p).Sound base := by
  obtain ⟨hnodup, hsorted, hmem, hlen⟩ := h.reset p (a.timestamp p + (a.ticker p).delay)
  refine ⟨hnodup, hsorted, fun j => (hmem j).trans ?_, ?_⟩
  · show j = p ∨ j ∈ a.order ↔ (a.ticker j).function.isSome
    rw [← h.attached j]
    constructor
    · rintro (rfl | hj)
      · exact hp
      · exact hj
    · exact Or.inr
  · have hpos := List.length_pos_of_mem hp
    show a.deep_sleep_lock = base + (place _ p (a.order.erase p)).length
    rw [hlen, h.lock, List.length_erase_of_mem hp]
    omega

theorem Sound.acts (h : a.Sound base) (hact : Acts C a a') : a'.Sound base := by
  cases hact with
  | time now hnow => exact ⟨h.nodup, h.sorted, h.attached, h.lock⟩
  | attach i func t => exact h.attach i func t
  | detach i => exact h.detach i
  | read f => exact ⟨h.nodup, h.sorted, h.attached, h.lock⟩
  | act f => exact ⟨h.nodup, h.sorted, h.attached, h.lock⟩
  | call p hp => exact h.call (List.mem_of_head? hp)

theorem Evolves.sound (h : Evolves C a a') (h0 : a.Sound base) : a'.Sound base :=
  h.invariant h0 fun _ _ hb hact => hb.acts hact

omit [DecidableEq α] in
theorem Sound.head_le (h : a.Sound base) {p i : α} (hp : a.order.head? = some p)
    (hi : i ∈ a.order) : a.timestamp p ≤ a.timestamp i := by
  obtain ⟨rest, horder⟩ := List.head?_eq_some_iff.1 hp
  have hsorted := h.sorted
  rw [horder] at hsorted hi
  exact hsorted.head_le hi

/-! ### The calls -/

/-- No call was early, they were made in the order they were due, and what is still on the agenda
is due no earlier. -/
structure Timely (a : Plan α β γ) : Prop where
  due : ∀ c ∈ a.calls, c.timestamp ≤ c.present_time ∧ c.present_time ≤ a.present_time
  sorted : a.calls.Pairwise fun c c' =>
    c'.timestamp ≤ c.timestamp ∧ c'.present_time ≤ c.present_time
  later : ∀ c ∈ a.calls, ∀ i ∈ a.order, c.timestamp ≤ a.timestamp i

theorem Timely.attach (h : a.Timely) (i : α) (func : β) (t : ℕ) : (a.attach i func t).Timely where
  due := h.due
  sorted := h.sorted
  later := by
    intro c hc j hj
    show c.timestamp ≤ Function.update a.timestamp i (t + a.present_time) j
    by_cases hji : j = i
    · subst hji
      rw [Function.update_self]
      have hdue := h.due c hc
      omega
    · rw [Function.update_of_ne hji]
      exact h.later c hc j (List.mem_of_mem_erase ((mem_place.1 hj).resolve_left hji))

theorem Timely.call (h : a.Timely) (hs : a.Sound base) {p : α} (hp : a.order.head? = some p)
    (hdue : a.timestamp p ≤ a.present_time) : (a.call p).Timely where
  due := by
    intro c hc
    rcases List.mem_cons.1 hc with rfl | hc
    · exact ⟨hdue, le_rfl⟩
    · exact h.due c hc
  sorted := List.pairwise_cons.2
    ⟨fun c hc => ⟨h.later c hc p (List.mem_of_head? hp), (h.due c hc).2⟩, h.sorted⟩
  later := by
    -- the new call was due no later than any other of the agenda, the old ones no later than it
    have hmin : ∀ c ∈ (a.call p).calls, c.timestamp ≤ a.timestamp p := by
      intro c hc
      rcases List.mem_cons.1 hc with rfl | hc
      · exact le_rfl
      · exact h.later c hc p (List.mem_of_head? hp)
    intro c hc j hj
    show c.timestamp ≤ Function.update a.timestamp p (a.timestamp p + (a.ticker p).delay) j
    have hcp := hmin c hc
    by_cases hjp : j = p
    · subst hjp
      rw [Function.update_self]
      omega
    · rw [Function.update_of_ne hjp]
      exact hcp.trans (hs.head_le hp (List.mem_of_mem_erase ((mem_place.1 hj).resolve_left hjp)))

theorem Timely.acts (h : a.Timely) (hs : a.Sound base) (hact : Acts C a a') : a'.Timely := by
  cases hact with
  | time now hnow =>
    exact ⟨fun c hc => ⟨(h.due c hc).1, (h.due c hc).2.trans hnow⟩, h.sorted, h.later⟩
  | attach i func t => exact h.attach i func t
  | detach i => exact ⟨h.due, h.sorted, fun c hc j hj => h.later c hc j (List.mem_of_mem_erase hj)⟩
  | read f => exact ⟨h.due, h.sorted, h.later⟩
  | act f => exact ⟨h.due, h.sorted, h.later⟩
  | call p hp hdue => exact h.call hs hp hdue

theorem Evolves.timely (h : Evolves C a a') (hs : a.Sound base) (h0 : a.Timely) : a'.Timely :=
  (h.invariant (P := fun a => a.Sound base ∧ a.Timely) ⟨hs, h0⟩
    fun _ _ hb hact => ⟨hb.1.acts hact, hb.2.acts hb.1 hact⟩).2

/-- From a plan on which nothing is due before `m`, and when it is not earlier than `m`, no call is
made that was due before `m`. -/
theorem Evolves.due_after {m : ℕ} (h : Evolves C a a') (hnow : m ≤ a.present_time)
    (horder : ∀ i ∈ a.order, m ≤ a.timestamp i) {c : TickerCall α} (hc : c ∈ a'.calls) :
    c ∈ a.calls ∨ m ≤ c.timestamp := by
  refine (h.invariant (P := fun b => m ≤ b.present_time ∧ (∀ i ∈ b.order, m ≤ b.timestamp i) ∧
    ∀ c ∈ b.calls, c ∈ a.calls ∨ m ≤ c.timestamp) ⟨hnow, horder, fun c hc => Or.inl hc⟩ ?_).2.2 c hc
  rintro b b' ⟨hnow, horder, hcalls⟩ hact
  have hreset {i : α} {ts : ℕ} (hts : m ≤ ts) : ∀ j ∈ place (Function.update b.timestamp i ts) i
      (b.order.erase i), m ≤ Function.update b.timestamp i ts j := by
    intro j hj
    by_cases hji : j = i
    · subst hji
      rwa [Function.update_self]
    · rw [Function.update_of_ne hji]
      exact horder j (List.mem_of_mem_erase ((mem_place.1 hj).resolve_left hji))
  cases hact with
  | time now hle => exact ⟨hnow.trans hle, horder, hcalls⟩
  | attach i func t => exact ⟨hnow, hreset (hnow.trans (Nat.le_add_left _ _)), hcalls⟩
  | detach i => exact ⟨hnow, fun j hj => horder j (List.mem_of_mem_erase hj), hcalls⟩
  | read f => exact ⟨hnow, horder, hcalls⟩
  | act f => exact ⟨hnow, horder, hcalls⟩
  | call p hp =>
    have hdue := horder p (List.mem_of_head? hp)
    refine ⟨hnow, hreset (hdue.trans (Nat.le_add_right _ _)), fun c hc => ?_⟩
    rcases List.mem_cons.1 hc with rfl | hc
    · exact Or.inr hdue
    · exact hcalls c hc

/-! ### Tickers that are left alone -/

/-- The command attaches or detaches `i`. -/
def Touches (i : α) : Command α β γ → Prop
  | .attach_us j _ _ => j = i
  | .detach j => j = i
  | .read _ => False
  | .act _ => False

/-- The times at which the calls of `i` were due, the latest first. -/
def callsOf (a : Plan α β γ) (i : α) : List ℕ :=
  (a.calls.filter fun c => c.ticker = i).map TickerCall.timestamp

theorem callsOf_call (a : Plan α β γ) (p i : α) :
    (a.call p).callsOf i = if p = i then a.timestamp p :: a.callsOf i else a.callsOf i := by
  by_cases hp : p = i <;> simp [callsOf, Plan.call, hp]

/-- Since the plan `a₀`, `i` has been called `k` times. -/
structure Periodic (a₀ : Plan α β γ) (i : α) (k : ℕ) (a : Plan α β γ) : Prop where
  mem : i ∈ a.order
  ticker : a.ticker i = a₀.ticker i
  timestamp : a.timestamp i = a₀.timestamp i + k * (a₀.ticker i).delay
  calls : a.callsOf i =
    ((List.range k).map fun n => a₀.timestamp i + n * (a₀.ticker i).delay).reverse ++ a₀.callsOf i

variable {a₀ : Plan α β γ} {i j : α} {k : ℕ}

theorem Periodic.attach (h : Periodic a₀ i k a) (hj : j ≠ i) (func : β) (t : ℕ) :
    Periodic a₀ i k (a.attach j func t) where
  mem := mem_place.2 (Or.inr ((List.mem_erase_of_ne hj.symm).2 h.mem))
  ticker := (Function.update_of_ne hj.symm _ _).trans h.ticker
  timestamp := (Function.update_of_ne hj.symm _ _).trans h.timestamp
  calls := h.calls

theorem Periodic.call_other (h : Periodic a₀ i k a) (hj : j ≠ i) :
    Periodic a₀ i k (a.call j) where
  mem := mem_place.2 (Or.inr ((List.mem_erase_of_ne hj.symm).2 h.mem))
  ticker := h.ticker
  timestamp := (Function.update_of_ne hj.symm _ _).trans h.timestamp
  calls := by
    rw [callsOf_call, if_neg hj, h.calls]

theorem Periodic.call_self (h : Periodic a₀ i k a) : Periodic a₀ i (k + 1) (a.call i) where
  mem := mem_place.2 (Or.inl rfl)
  ticker := h.ticker
  timestamp := by
    show Function.update _ _ _ _ = _
    rw [Function.update_self, h.timestamp, h.ticker]
    ring
  calls := by
    rw [callsOf_call, if_pos rfl, h.calls, h.timestamp, List.range_succ, List.map_append,
      List.reverse_append]
    rfl

/-- **A ticker that is left alone is called once in each period**, counted from the time its first
call is due: its calls are due at the first `k` of these times, and the next is what it waits for. -/
theorem Evolves.periodic (h : Evolves C a a') (hi : i ∈ a.order) (hC : ∀ c, C c → ¬ Touches i c) :
    ∃ k, Periodic a i k a' := by
  refine h.invariant (P := fun a' => ∃ k, Periodic a i k a')
    ⟨0, hi, rfl, by simp, by simp⟩ ?_
  rintro b b' ⟨k, hb⟩ hact
  cases hact with
  | time now hnow => exact ⟨k, hb.mem, hb.ticker, hb.timestamp, hb.calls⟩
  | attach j func t hc => exact ⟨k, hb.attach (fun hj => hC _ hc hj) func t⟩
  | detach j hc =>
    have hj : j ≠ i := fun hj => hC _ hc hj
    exact ⟨k, (List.mem_erase_of_ne hj.symm).2 hb.mem,
      (Function.update_of_ne hj.symm _ _).trans hb.ticker, hb.timestamp, hb.calls⟩
  | read f => exact ⟨k, hb.mem, hb.ticker, hb.timestamp, hb.calls⟩
  | act f => exact ⟨k, hb.mem, hb.ticker, hb.timestamp, hb.calls⟩
  | call p hp =>
    by_cases hpi : p = i
    · subst hpi
      exact ⟨k + 1, hb.call_self⟩
    · exact ⟨k, hb.call_other hpi⟩

/-- Every call of `j` on the record, the latest first, comes after a call of `i`. -/
def Heralded (i j : α) (calls : List (TickerCall α)) : Prop :=
  ∀ c earlier, c :: earlier <:+ calls → c.ticker = j → ∃ c' ∈ earlier, c'.ticker = i

/-- The calls since `a₀` are `calls`, and either `i` is one of those called or it is before `j` on
the agenda. -/
structure Precedes (a₀ : Plan α β γ) (i j : α) (a : Plan α β γ) (calls : List (TickerCall α)) :
    Prop where
  since : a.calls = calls ++ a₀.calls
  heralded : Heralded i j calls
  next : [i, j].Sublist a.order ∨ ∃ c ∈ calls, c.ticker = i

/-- What is set anew does not change the order of the others. -/
theorem sublist_reset {timestamp : α → ℕ} {p : α} {order : List α} (hi : p ≠ i) (hj : p ≠ j)
    (h : [i, j].Sublist order) : [i, j].Sublist (place timestamp p (order.erase p)) := by
  have herase := h.erase p
  rw [List.erase_of_not_mem (by simp [hi, hj])] at herase
  exact herase.trans (List.sublist_orderedInsert p _)

omit [DecidableEq α] in
/-- Of two on the agenda, the latter is not at the head. -/
theorem ne_of_head (hs : a.Sound base) (hij : i ≠ j) (hsub : [i, j].Sublist a.order) {p : α}
    (hp : a.order.head? = some p) : p ≠ j := by
  rintro rfl
  obtain ⟨rest, horder⟩ := List.head?_eq_some_iff.1 hp
  have hnodup := hs.nodup
  rw [horder] at hsub hnodup
  cases hsub with
  | cons _ hsub => exact (List.nodup_cons.1 hnodup).1 (hsub.subset (by simp))
  | cons_cons _ hsub => exact hij rfl

theorem Precedes.call {calls : List (TickerCall α)} (h : Precedes a₀ i j a calls)
    (hs : a.Sound base) (hij : i ≠ j) {p : α} (hp : a.order.head? = some p) :
    Precedes a₀ i j (a.call p) (⟨p, a.timestamp p, a.present_time⟩ :: calls) where
  since := by
    show _ :: a.calls = _
    rw [h.since, List.cons_append]
  heralded := by
    intro c earlier hsuffix hc
    rcases List.suffix_cons_iff.1 hsuffix with heq | hsuffix
    · obtain ⟨rfl, rfl⟩ := List.cons.inj heq
      exact h.next.resolve_left fun hsub => ne_of_head hs hij hsub hp hc
    · exact h.heralded c earlier hsuffix hc
  next := by
    rcases h.next with hsub | ⟨c, hc, hci⟩
    · by_cases hpi : p = i
      · exact Or.inr ⟨_, List.mem_cons_self, hpi⟩
      · exact Or.inl (sublist_reset hpi (ne_of_head hs hij hsub hp) hsub)
    · exact Or.inr ⟨c, List.mem_cons_of_mem _ hc, hci⟩

theorem Precedes.acts {calls : List (TickerCall α)} (h : Precedes a₀ i j a calls)
    (hs : a.Sound base) (hij : i ≠ j) (hC : ∀ c, C c → ¬ Touches i c ∧ ¬ Touches j c)
    (hact : Acts C a a') : ∃ calls', Precedes a₀ i j a' calls' := by
  cases hact with
  | time now hnow => exact ⟨calls, h.since, h.heralded, h.next⟩
  | attach m func t hc =>
    exact ⟨calls, h.since, h.heralded, h.next.imp_left (sublist_reset (hC _ hc).1 (hC _ hc).2)⟩
  | detach m hc =>
    refine ⟨calls, h.since, h.heralded, h.next.imp_left fun hsub => ?_⟩
    have herase := hsub.erase m
    rwa [List.erase_of_not_mem (by simpa using ⟨(hC _ hc).1, (hC _ hc).2⟩)] at herase
  | read f => exact ⟨calls, h.since, h.heralded, h.next⟩
  | act f => exact ⟨calls, h.since, h.heralded, h.next⟩
  | call p hp => exact ⟨_, h.call hs hij hp⟩

/-- **First come, first served.**  Of two tickers that are left alone, the one that is before the
other on the agenda is called before it. -/
theorem Evolves.fifo (h : Evolves C a a') (hs : a.Sound base) (hij : i ≠ j)
    (hsub : [i, j].Sublist a.order) (hC : ∀ c, C c → ¬ Touches i c ∧ ¬ Touches j c) :
    ∃ calls, a'.calls = calls ++ a.calls ∧ Heralded i j calls := by
  have hnone : Precedes a i j a [] := ⟨rfl, fun _ _ hsuffix => by simp at hsuffix, Or.inl hsub⟩
  obtain ⟨-, calls, hprecedes⟩ := h.invariant
    (P := fun b => b.Sound base ∧ ∃ calls, Precedes a i j b calls) ⟨hs, [], hnone⟩
    fun _ _ ⟨hb, calls, h⟩ hact => ⟨hb.acts hact, h.acts hb hij hC hact⟩
  exact ⟨calls, hprecedes.since, hprecedes.heralded⟩

end Plan

end NucleoMotor
