import NucleoMotor.Lib.Runs

/-!
# A latch between a publisher and a polling consumer

A publisher puts data into a one-place slot and a consumer polls it: a poll that finds a datum
takes it and applies it, with its own argument, to the consumer's value; any other poll does
nothing.  A datum that is not taken before the next one is lost.

* `rounds`: the data of a run, each with the first poll before the next datum.
* `value_exec`: a run computes what applying the data of its rounds computes.
* `taken_exec`: the data applied are those of the rounds with a poll, once each.
* `value_congr`: polls other than the first of a round are invisible.
-/

namespace Latch

open Runs

inductive Event (δ χ : Type*)
  | publish (d : δ)
  | poll (c : χ)

/-- The consumer's value, and the datum that waits for a poll. -/
structure State (δ κ : Type*) where
  value : κ
  slot : Option δ

variable {δ χ κ : Type*} (apply : κ → δ → χ → κ)

def step (s : State δ κ) : Event δ χ → State δ κ
  | .publish d => ⟨s.value, some d⟩
  | .poll c =>
    match s.slot with
    | none => s
    | some d => ⟨apply s.value d c, none⟩

def Event.isPublish : Event δ χ → Bool
  | .publish _ => true
  | .poll _ => false

/-- The first poll before the next datum. -/
def firstPoll : List (Event δ χ) → Option χ
  | .poll c :: _ => some c
  | _ => none

/-- Every datum with the first poll before the next one. -/
def rounds : List (Event δ χ) → List (δ × Option χ)
  | [] => []
  | .publish d :: es => (d, firstPoll es) :: rounds es
  | .poll _ :: es => rounds es

/-- The rounds of a run that starts with `slot`. -/
def roundsFrom (slot : Option δ) (es : List (Event δ χ)) : List (δ × Option χ) :=
  (slot.map fun d => (d, firstPoll es)).toList ++ rounds es

/-- The effect of a round. -/
def consume (k : κ) : δ × Option χ → κ
  | (d, some c) => apply k d c
  | (_, none) => k

/-- The datum of a round with a poll. -/
def polled : δ × Option χ → Option δ
  | (d, some _) => some d
  | (_, none) => none

/-- The data that the polls of a run take. -/
def taken (s : State δ κ) (es : List (Event δ χ)) : List δ :=
  image (step apply) (fun s e => match e with
    | .publish _ => []
    | .poll _ => s.slot.toList) s es

/-- **A run is the sequence of its rounds.** -/
theorem value_exec (k : κ) (slot : Option δ) (es : List (Event δ χ)) :
    (exec (step apply) ⟨k, slot⟩ es).value = exec (consume apply) k (roundsFrom slot es) := by
  induction es generalizing k slot with
  | nil => cases slot <;> rfl
  | cons e es ih =>
    cases e with
    | publish d =>
      -- a datum still in the slot is lost, a round without effect
      have h := ih k (some d)
      cases slot <;> exact h
    | poll c =>
      cases slot with
      | none => exact ih k none
      | some d => exact ih (apply k d c) none

/-- The data taken are those of the rounds with a poll. -/
theorem taken_exec (k : κ) (slot : Option δ) (es : List (Event δ χ)) :
    taken apply ⟨k, slot⟩ es = (roundsFrom slot es).filterMap polled := by
  induction es generalizing k slot with
  | nil => cases slot <;> rfl
  | cons e es ih =>
    cases e with
    | publish d =>
      have h := ih k (some d)
      cases slot <;> exact h
    | poll c =>
      cases slot with
      | none => exact ih k none
      | some d => exact congrArg (d :: ·) (ih (apply k d c) none)

/-- Polls other than the first of a round are invisible. -/
theorem value_congr {es es' : List (Event δ χ)} (h : rounds es = rounds es') (k : κ) :
    (exec (step apply) ⟨k, none⟩ es).value = (exec (step apply) ⟨k, none⟩ es').value := by
  rw [value_exec, value_exec, roundsFrom, roundsFrom, h]
  rfl

/-- The first rounds of a run are the rounds of its first part. -/
theorem rounds_cut (n : ℕ) (es : List (Event δ χ)) :
    rounds (cut Event.isPublish n es) = (rounds es).take n := by
  have hfirst (n : ℕ) (es : List (Event δ χ)) :
      firstPoll (cut Event.isPublish n es) = firstPoll es := by
    rcases es with _ | ⟨_ | _, es⟩
    · rfl
    · cases n <;> rfl
    · rfl
  induction es generalizing n with
  | nil => simp [cut, rounds]
  | cons e es ih =>
    cases e with
    | poll c => exact ih n
    | publish d =>
      cases n with
      | zero => rfl
      | succ n => simp [cut, Event.isPublish, rounds, hfirst, ih]

/-- Data with different keys are taken once each if polled, and not otherwise. -/
theorem count_polled {ι : Type*} [DecidableEq ι] (key : δ → ι) {rs : List (δ × Option χ)}
    (h : (rs.map fun r => key r.1).Nodup) {r : δ × Option χ} (hr : r ∈ rs) :
    ((rs.filterMap polled).map key).count (key r.1) = if r.2.isSome then 1 else 0 := by
  have habsent (qs : List (δ × Option χ)) (i : ι) (hi : i ∉ qs.map fun q => key q.1) :
      ((qs.filterMap polled).map key).count i = 0 := by
    rw [List.count_eq_zero]
    intro hmem
    simp only [List.mem_map, List.mem_filterMap] at hmem hi
    obtain ⟨d, ⟨⟨d', c⟩, hq, hpolled⟩, hkey⟩ := hmem
    cases c with
    | none => simp [polled] at hpolled
    | some c =>
      simp only [polled, Option.some.injEq] at hpolled
      exact hi ⟨(d', some c), hq, by rw [hpolled, hkey]⟩
  induction rs with
  | nil => simp at hr
  | cons q qs ih =>
    rw [List.map_cons, List.nodup_cons] at h
    obtain ⟨d, c⟩ := q
    rcases List.mem_cons.1 hr with rfl | hmem
    · have h0 := habsent qs (key d) h.1
      cases c <;> simp [List.filterMap_cons, polled, h0]
    · have hne : key d ≠ key r.1 := by
        intro heq
        exact h.1 (List.mem_map.2 ⟨r, hmem, heq.symm⟩)
      have hrest := ih h.2 hmem
      cases c <;> simp [List.filterMap_cons, polled, hne, hrest]

end Latch
