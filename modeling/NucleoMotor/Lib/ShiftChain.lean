import Mathlib.Tactic

/-!
# Chains of shift registers

A chain is the list of the contents of its registers, the one nearest the input first.  A write
pushes a value into the first register and moves every other one register further, so the value in
the last one is lost.

* `writes_eq`: after any writes the chain holds the latest ones, the last one first.
* `getElem?_repeated`: writing every value `m` times leaves each in `m` registers.
* `repeated_take_eq_iff`: for `m ≥ 2` the chain then holds the values intact only if they are equal.
-/

namespace ShiftChain

variable {β : Type*}

/-- One write. -/
def write (regs : List β) (x : β) : List β := (x :: regs).take regs.length

/-- A list of writes. -/
def writes (regs : List β) (xs : List β) : List β := xs.foldl write regs

@[simp] theorem length_write (regs : List β) (x : β) : (write regs x).length = regs.length := by
  simp [write]

/-- **After any writes the chain holds the latest ones.** -/
theorem writes_eq (regs xs : List β) :
    writes regs xs = (xs.reverse ++ regs).take regs.length := by
  induction xs generalizing regs with
  | nil => simp [writes]
  | cons x xs ih =>
    have h : writes regs (x :: xs) = writes (write regs x) xs := rfl
    rw [h, ih, length_write, write, List.reverse_cons, List.append_assoc, List.singleton_append]
    rw [List.take_append, List.take_append, List.take_take, List.length_reverse]
    congr 2
    omega

/-- Every value of the list `m` times. -/
def repeated (m : ℕ) (xs : List β) : List β := xs.flatMap (List.replicate m)

theorem repeated_reverse (m : ℕ) (xs : List β) :
    repeated m xs.reverse = (repeated m xs).reverse := by
  simp [repeated, List.reverse_flatMap, Function.comp_def]

@[simp] theorem length_repeated (m : ℕ) (xs : List β) : (repeated m xs).length = m * xs.length := by
  simp [repeated, List.length_flatMap, mul_comm]

/-- Register `j` holds value `j / m`. -/
theorem getElem?_repeated {m : ℕ} (hm : 0 < m) (xs : List β) (j : ℕ) :
    (repeated m xs)[j]? = xs[j / m]? := by
  induction xs generalizing j with
  | nil => simp [repeated]
  | cons x xs ih =>
    have hcons : repeated m (x :: xs) = List.replicate m x ++ repeated m xs := rfl
    rw [hcons]
    by_cases hj : j < m
    · simp [List.getElem?_append_left, hj, Nat.div_eq_of_lt hj]
    · -- past the copies of `x` the quotient is one more
      have hdiv : j / m = (j - m) / m + 1 := Nat.div_eq_sub_div hm (by omega)
      rw [List.getElem?_append_right (by simpa using hj), List.length_replicate, ih, hdiv,
        List.getElem?_cons_succ]

/-- With two or more copies of each value, a chain as long as the list holds it intact exactly when
all its values are equal. -/
theorem repeated_take_eq_iff {m : ℕ} (hm : 2 ≤ m) (xs : List β) :
    (repeated m xs).take xs.length = xs ↔ ∀ x ∈ xs, ∀ y ∈ xs, x = y := by
  constructor
  · intro h
    have hhalf (j : ℕ) (hj : j < xs.length) : xs[j]? = xs[j / m]? :=
      calc xs[j]? = ((repeated m xs).take xs.length)[j]? := by rw [h]
        _ = (repeated m xs)[j]? := List.getElem?_take_of_lt hj
        _ = xs[j / m]? := getElem?_repeated (by omega) xs j
    -- halving leads every index to the first one
    have hfirst (j : ℕ) (hj : j < xs.length) : xs[j]? = xs[0]? := by
      induction j using Nat.strong_induction_on with
      | _ j ih =>
        rcases Nat.eq_zero_or_pos j with rfl | hpos
        · rfl
        · have hlt : j / m < j := Nat.div_lt_self hpos (by omega)
          rw [hhalf j hj, ih (j / m) hlt (by omega)]
    intro x hx y hy
    obtain ⟨i, hi, rfl⟩ := List.mem_iff_getElem.1 hx
    obtain ⟨j, hj, rfl⟩ := List.mem_iff_getElem.1 hy
    have hij := (hfirst i hi).trans (hfirst j hj).symm
    simpa [hi, hj] using hij
  · intro h
    refine List.ext_getElem? fun j => ?_
    by_cases hj : j < xs.length
    · have hdiv : j / m < xs.length := (Nat.div_le_self j m).trans_lt hj
      rw [List.getElem?_take_of_lt hj, getElem?_repeated (by omega), List.getElem?_eq_getElem hj,
        List.getElem?_eq_getElem hdiv]
      exact congrArg some (h _ (List.getElem_mem hdiv) _ (List.getElem_mem hj))
    · rw [List.getElem?_eq_none (by simp; omega), List.getElem?_eq_none (by omega)]

end ShiftChain
