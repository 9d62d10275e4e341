import Mathlib.Logic.Function.Basic
import Mathlib.Tactic

/-!
# Singly linked lists in a memory of cells

The memory is a function `next` from a cell to the cell it points to, if any.  A `Chain` is the
list of the cells that a pointer leads to along `next`, when that ends.

* `Chain.unique`, `Chain.nodup`: a pointer leads to at most one such list, and no cell twice.
* `seek`: the loop that walks a list and stops at a cell, with `Chain.seek` for where it stops.
* `Chain.relink`, `Chain.unlink`: a new cell between two cells, a cell taken out.
-/

namespace Linked

variable {α : Type*} {next : α → Option α} {p q r : Option α} {a b : α} {l m : List α}

/-- From `p` the cells `l` lead to `q`. -/
def Path (next : α → Option α) : Option α → List α → Option α → Prop
  | p, [], q => p = q
  | p, a :: l, q => p = some a ∧ Path next (next a) l q

/-- The cells from `p` to the end of the list. -/
def Chain (next : α → Option α) (p : Option α) (l : List α) : Prop := Path next p l none

@[simp] theorem path_nil : Path next p [] q ↔ p = q := Iff.rfl

@[simp] theorem path_cons : Path next p (a :: l) q ↔ p = some a ∧ Path next (next a) l q := Iff.rfl

theorem path_append : Path next p (l ++ m) q ↔ ∃ r, Path next p l r ∧ Path next r m q := by
  induction l generalizing p with
  | nil => simp
  | cons a l ih => simp [ih, and_assoc]

/-- A write to a cell off the path does not change the path. -/
theorem path_update [DecidableEq α] (ha : a ∉ l) :
    Path (Function.update next a r) p l q ↔ Path next p l q := by
  induction l generalizing p with
  | nil => rfl
  | cons b l ih =>
    obtain ⟨hab, hal⟩ : a ≠ b ∧ a ∉ l := by simpa using ha
    rw [path_cons, path_cons, ih hal, Function.update_of_ne hab.symm]

@[simp] theorem chain_nil : Chain next p [] ↔ p = none := Iff.rfl

@[simp] theorem chain_cons : Chain next p (a :: l) ↔ p = some a ∧ Chain next (next a) l := Iff.rfl

theorem chain_append : Chain next p (l ++ m) ↔ ∃ r, Path next p l r ∧ Chain next r m :=
  path_append

theorem Chain.head? (h : Chain next p l) : l.head? = p := by
  cases l with
  | nil => exact h.symm
  | cons a l => exact h.1.symm

/-- **A pointer leads to at most one list.** -/
theorem Chain.unique (hl : Chain next p l) (hm : Chain next p m) : l = m := by
  induction l generalizing p m with
  | nil =>
    cases m with
    | nil => rfl
    | cons b m => cases hl.symm.trans hm.1
  | cons a l ih =>
    cases m with
    | nil => cases hl.1.symm.trans hm
    | cons b m =>
      obtain rfl : a = b := Option.some.inj (hl.1.symm.trans hm.1)
      rw [ih hl.2 hm.2]

/-- **No cell occurs twice**: from a second occurrence the list would go on as from the first. -/
theorem Chain.nodup (h : Chain next p l) : l.Nodup := by
  induction l generalizing p with
  | nil => exact List.nodup_nil
  | cons a l ih =>
    refine List.nodup_cons.2 ⟨fun ha => ?_, ih h.2⟩
    obtain ⟨s, t, rfl⟩ := List.append_of_mem ha
    obtain ⟨r, -, hr⟩ := chain_append.1 h.2
    have hfirst : Chain next (next a) (s ++ a :: t) := h.2
    have hlen := congrArg List.length (hfirst.unique hr.2)
    simp only [List.length_append, List.length_cons] at hlen
    omega

/-- The cell after one of `l` is one of `l` or the first of `m`. -/
theorem Chain.mem_of_next (h : Chain next p (l ++ m)) (ha : a ∈ l) (hb : next a = some b) :
    b ∈ l.tail ++ m.take 1 := by
  induction l generalizing p with
  | nil => cases ha
  | cons c l ih =>
    obtain ⟨-, h⟩ := h
    rcases List.mem_cons.1 ha with rfl | ha
    · rw [hb] at h
      cases l with
      | nil =>
        cases m with
        | nil => cases h
        | cons d m => simpa using Option.some.inj h.1
      | cons d l => simpa using Or.inl (Option.some.inj h.1)
    · have hmem := ih h ha
      rw [List.mem_append] at hmem ⊢
      exact hmem.imp_left List.mem_of_mem_tail

/-! ### The loop over a list -/

/-- The loop that walks from `p` along `next` and breaks at the first cell that meets `stop`, with
the cell before it; `prev` is the cell before `p`. -/
def seek (next : α → Option α) (stop : α → Bool) :
    ℕ → Option α → Option α → Option (Option α × Option α)
  | 0, _, _ => none
  | _ + 1, prev, none => some (prev, none)
  | fuel + 1, prev, some p =>
    if stop p then some (prev, some p) else seek next stop fuel (some p) (next p)

/-- **Where the loop breaks.** -/
theorem Chain.seek {stop : α → Bool} {fuel : ℕ} {prev : Option α} (h : Chain next p (l ++ m))
    (hl : ∀ a ∈ l, stop a = false) (hm : ∀ a ∈ m.head?, stop a = true) (hfuel : l.length < fuel) :
    Linked.seek next stop fuel prev p = some (l.getLast?.or prev, m.head?) := by
  induction l generalizing p prev fuel with
  | nil =>
    obtain ⟨fuel, rfl⟩ : ∃ n, fuel = n + 1 := ⟨fuel - 1, by simp at hfuel; omega⟩
    cases m with
    | nil =>
      obtain rfl : p = none := h
      rfl
    | cons b m =>
      obtain ⟨rfl, -⟩ := h
      simp [Linked.seek, hm b (by simp)]
  | cons a l ih =>
    obtain ⟨fuel, rfl⟩ : ∃ n, fuel = n + 1 := ⟨fuel - 1, by simp at hfuel; omega⟩
    obtain ⟨rfl, h⟩ := h
    have hstop : stop a = false := hl a (by simp)
    have hrest : Linked.seek next stop fuel (some a) (next a) = _ :=
      ih h (fun b hb => hl b (by simp [hb])) (by simpa using hfuel)
    rw [Linked.seek, if_neg (by simp [hstop]), hrest]
    cases l with
    | nil => rfl
    | cons b l => simp [List.getLast?_cons]

/-! ### A cell put in, a cell taken out -/

variable [DecidableEq α]

/-- Put first. -/
theorem Chain.push (h : Chain next p l) (ha : a ∉ l) :
    Chain (Function.update next a p) (some a) (a :: l) := by
  refine ⟨rfl, ?_⟩
  rw [Function.update_self]
  exact (path_update ha).2 h

/-- **Put after `b`**: the new cell points to what followed, and `b` to the new cell. -/
theorem Chain.relink (h : Chain next p (l ++ b :: m)) (ha : a ∉ l ++ b :: m) :
    Chain (Function.update (Function.update next a m.head?) b (some a)) p
      (l ++ b :: a :: m) := by
  have hnodup := h.nodup
  simp only [List.nodup_append, List.nodup_cons, List.mem_cons, List.mem_append] at hnodup ha
  obtain ⟨-, ⟨hbm, -⟩, hlb⟩ := hnodup
  have hbl : b ∉ l := fun hb => hlb b hb b (Or.inl rfl) rfl
  have hal : a ∉ l := fun hal => ha (Or.inl hal)
  have ham : a ∉ m := fun ham => ha (Or.inr (Or.inr ham))
  have hab : a ≠ b := fun hab => ha (Or.inr (Or.inl hab))
  obtain ⟨r, hl, rfl, hm⟩ := chain_append.1 h
  have hhead : m.head? = next b := Chain.head? hm
  refine chain_append.2 ⟨some b, ?_, rfl, ?_, ?_⟩
  · exact (path_update hbl).2 ((path_update hal).2 hl)
  · rw [Function.update_self]
  · rw [Function.update_of_ne hab, Function.update_self, hhead]
    exact (path_update hbm).2 ((path_update ham).2 hm)

/-- **The cell after `b` taken out**: `b` points to what followed it. -/
theorem Chain.unlink (h : Chain next p (l ++ b :: a :: m)) :
    Chain (Function.update next b (next a)) p (l ++ b :: m) := by
  have hnodup := h.nodup
  simp only [List.nodup_append, List.nodup_cons, List.mem_cons] at hnodup
  obtain ⟨-, ⟨hb, -, -⟩, hlb⟩ := hnodup
  have hbl : b ∉ l := fun hb => hlb b hb b (Or.inl rfl) rfl
  have hbm : b ∉ m := fun hbm => hb (Or.inr hbm)
  obtain ⟨r, hl, rfl, -, hm⟩ := chain_append.1 h
  refine chain_append.2 ⟨some b, (path_update hbl).2 hl, rfl, ?_⟩
  rw [Function.update_self]
  exact (path_update hbm).2 hm

/-- The loop that looks for the cell before `a` finds it. -/
theorem Chain.seek_before {fuel : ℕ} (h : Chain next p (l ++ b :: a :: m))
    (hfuel : l.length < fuel) :
    Linked.seek next (fun c => next c = some a) fuel none p = some (l.getLast?, some b) := by
  have hnodup := h.nodup
  have hba : next b = some a := by
    obtain ⟨r, -, rfl, hr, -⟩ := chain_append.1 h
    exact hr
  have hlook : _ → _ → Linked.seek next (fun c => next c = some a) fuel none p = _ :=
    fun hl hm => h.seek hl hm hfuel
  refine (hlook ?_ ?_).trans (by simp)
  · intro c hc
    rw [decide_eq_false_iff_not]
    intro hca
    have hmem := h.mem_of_next hc hca
    simp only [List.nodup_append, List.nodup_cons, List.mem_cons] at hnodup
    rcases List.mem_append.1 hmem with hmem | hmem
    · exact hnodup.2.2 a (List.mem_of_mem_tail hmem) a (by simp) rfl
    · exact hnodup.2.1.1 (Or.inl (by simpa using hmem : a = b).symm)
  · intro c hc
    obtain rfl : b = c := by simpa using hc
    simpa using hba

/-- The loop that looks for the cell before `a` runs to the end when `a` is not in the list. -/
theorem Chain.seek_absent {fuel : ℕ} (h : Chain next p l) (ha : a ∉ l) (hfuel : l.length < fuel) :
    ∃ prev, Linked.seek next (fun c => next c = some a) fuel none p = some (prev, none) := by
  have h' : Chain next p (l ++ []) := by simpa using h
  refine ⟨_, h'.seek (fun c hc => ?_) (by simp) hfuel⟩
  rw [decide_eq_false_iff_not]
  intro hca
  have hmem := h'.mem_of_next hc hca
  rw [List.take_nil, List.append_nil] at hmem
  exact ha (List.mem_of_mem_tail hmem)

end Linked
