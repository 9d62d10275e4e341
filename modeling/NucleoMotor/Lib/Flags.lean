import NucleoMotor.Lib.Runs

/-!
# A bank of flags

What an interrupt controller keeps of its lines: an event raises the flag of its line, serving the
line clears it, and an event that finds the flag raised is merged with the one that waits.

* `ledger`: on every line, what was raised has been served, was merged or waits.
* `served_le`: the lines of a set are served no more often than they waited and were raised.
-/

namespace Flags

open Runs

variable {ι : Type} [DecidableEq ι]

inductive Event (ι : Type)
  | raise (i : ι)
  | serve (i : ι)
  deriving DecidableEq, Repr

def step (f : ι → Bool) : Event ι → ι → Bool
  | .raise i => Function.update f i true
  | .serve i => Function.update f i false

/-- Only a raised flag is served. -/
def Waits (f : ι → Bool) : Event ι → Prop
  | .raise _ => True
  | .serve i => f i = true

/-- An event of the line `i` finds the flag raised. -/
def Merges (i : ι) (f : ι → Bool) (e : Event ι) : Prop := e = .raise i ∧ f i = true

instance (i : ι) (f : ι → Bool) (e : Event ι) : Decidable (Merges i f e) :=
  inferInstanceAs (Decidable (e = .raise i ∧ f i = true))

def Event.serves (S : Finset ι) : Event ι → Bool
  | .raise _ => false
  | .serve i => i ∈ S

variable {f : ι → Bool} {es : List (Event ι)}

/-- **What was raised has been served, was merged or waits.** -/
theorem ledger (h : AllSteps step Waits f es) (i : ι) :
    (f i).toNat + es.count (.raise i) =
      es.count (.serve i) + count step (Merges i) f es + (exec step f es i).toNat := by
  induction es generalizing f with
  | nil => simp [count]
  | cons e es ih =>
    have hrest := ih h.2
    rw [exec_cons, count]
    cases e with
    | raise j =>
      by_cases hj : j = i
      · subst hj
        cases hf : f j <;> simp [step, Merges, hf] at hrest ⊢ <;> omega
      · have hkept : step f (.raise j) i = f i := Function.update_of_ne (Ne.symm hj) _ _
        rw [hkept] at hrest
        simpa [Merges, hj] using hrest
    | serve j =>
      by_cases hj : j = i
      · subst hj
        have hf : f j = true := h.1
        simp [step, Merges, hf] at hrest ⊢
        omega
      · have hkept : step f (.serve j) i = f i := Function.update_of_ne (Ne.symm hj) _ _
        rw [hkept] at hrest
        simpa [Merges, hj] using hrest

/-- A raised flag that is not served stays raised. -/
theorem stays {i : ι} (hi : f i = true) (hes : .serve i ∉ es) : exec step f es i = true := by
  induction es generalizing f with
  | nil => exact hi
  | cons e es ih =>
    obtain ⟨he, hes⟩ := not_or.1 (List.mem_cons.not.1 hes)
    refine ih ?_ hes
    cases e with
    | raise j =>
      by_cases hj : i = j
      · subst hj
        exact Function.update_self ..
      · exact (Function.update_of_ne hj _ _).trans hi
    | serve j =>
      have hj : i ≠ j := by simpa using he
      exact (Function.update_of_ne hj _ _).trans hi

/-- A flag that is not raised stays clear. -/
theorem stays_clear {i : ι} (hi : f i = false) (hes : .raise i ∉ es) :
    exec step f es i = false := by
  induction es generalizing f with
  | nil => exact hi
  | cons e es ih =>
    obtain ⟨he, hes⟩ := not_or.1 (List.mem_cons.not.1 hes)
    refine ih ?_ hes
    cases e with
    | raise j =>
      have hj : i ≠ j := by simpa using he
      exact (Function.update_of_ne hj _ _).trans hi
    | serve j =>
      by_cases hj : i = j
      · subst hj
        exact Function.update_self ..
      · exact (Function.update_of_ne hj _ _).trans hi

/-- A set of lines is served no more often than its lines waited and were raised. -/
theorem served_le (h : AllSteps step Waits f es) (S : Finset ι) :
    es.countP (Event.serves S) ≤ ∑ i ∈ S, ((f i).toNat + es.count (.raise i)) := by
  induction es generalizing f with
  | nil => simp
  | cons e es ih =>
    have hrest := ih h.2
    cases e with
    | raise j =>
      rw [List.countP_cons_of_neg (by simp [Event.serves])]
      refine hrest.trans (Finset.sum_le_sum fun i _ => ?_)
      by_cases hj : j = i
      · subst hj
        have hle : (true).toNat ≤ 1 := le_rfl
        simp [step]
        omega
      · simp [step, Function.update_of_ne (Ne.symm hj), hj]
    | serve j =>
      have hf : f j = true := h.1
      have hle : ∀ i ∈ S, ((step f (.serve j) i).toNat + es.count (.raise i)) ≤
          (f i).toNat + (Event.serve j :: es).count (.raise i) := by
        intro i _
        by_cases hj : i = j
        · subst hj
          simp [step]
        · simp [step, Function.update_of_ne hj]
      by_cases hS : j ∈ S
      · rw [List.countP_cons_of_pos (by simpa [Event.serves] using hS)]
        refine hrest.trans_lt (Finset.sum_lt_sum hle ⟨j, hS, ?_⟩)
        simp [step, hf]
      · rw [List.countP_cons_of_neg (by simpa [Event.serves] using hS)]
        exact hrest.trans (Finset.sum_le_sum hle)

end Flags
