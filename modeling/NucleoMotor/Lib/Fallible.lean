import Mathlib.Tactic

/-!
# Runs of a system whose steps may fail

* `run`: the state after a list of events, unless one of their steps fails.
* `AllSteps C`: every step of the run meets `C`, a condition on the state before it and the event.
* `AllSteps.invariant`: what every step that succeeds preserves holds at the end of a run.
-/

namespace Fallible

variable {σ ε : Type*} {step : σ → ε → Option σ} {C D : σ → ε → Prop} {P : σ → Prop}

def run (step : σ → ε → Option σ) (s : σ) (es : List ε) : Option σ := es.foldlM step s

/-- Every step of the run meets `C`. -/
def AllSteps (step : σ → ε → Option σ) (C : σ → ε → Prop) : σ → List ε → Prop
  | _, [] => True
  | s, e :: es => C s e ∧ ∀ t, step s e = some t → AllSteps step C t es

instance AllSteps.decidable [∀ s e, Decidable (C s e)] : ∀ s es, Decidable (AllSteps step C s es)
  | _, [] => inferInstanceAs (Decidable True)
  | s, e :: es =>
    let _ := fun t => AllSteps.decidable t es
    inferInstanceAs (Decidable (C s e ∧ ∀ t ∈ step s e, AllSteps step C t es))

@[simp] theorem run_nil (s : σ) : run step s [] = some s := rfl

@[simp] theorem run_cons (s : σ) (e : ε) (es : List ε) :
    run step s (e :: es) = (step s e).bind fun t => run step t es := rfl

theorem run_append (s : σ) (es fs : List ε) :
    run step s (es ++ fs) = (run step s es).bind fun t => run step t fs := by
  induction es generalizing s with
  | nil => rfl
  | cons e es ih => simp [ih, Option.bind_assoc]

theorem AllSteps.imp {s : σ} {es : List ε} (h : AllSteps step C s es)
    (hCD : ∀ t e, C t e → D t e) : AllSteps step D s es := by
  induction es generalizing s with
  | nil => trivial
  | cons e es ih => exact ⟨hCD s e h.1, fun t ht => ih (h.2 t ht)⟩

theorem allSteps_append {s : σ} {es fs : List ε} :
    AllSteps step C s (es ++ fs) ↔
      AllSteps step C s es ∧ ∀ t, run step s es = some t → AllSteps step C t fs := by
  induction es generalizing s with
  | nil => simp [AllSteps]
  | cons e es ih =>
    simp only [List.cons_append, AllSteps, run_cons, ih, Option.bind_eq_some_iff, and_assoc]
    constructor
    · rintro ⟨hC, h⟩
      exact ⟨hC, fun t ht => (h t ht).1, fun u ⟨t, ht, hu⟩ => (h t ht).2 u hu⟩
    · rintro ⟨hC, h1, h2⟩
      exact ⟨hC, fun t ht => ⟨h1 t ht, fun u hu => h2 u ⟨t, ht, hu⟩⟩⟩

/-- **What every step preserves holds at the end.** -/
theorem AllSteps.invariant {s s' : σ} {es : List ε} (h : AllSteps step C s es)
    (hrun : run step s es = some s') (h0 : P s)
    (hstep : ∀ t e t', P t → C t e → step t e = some t' → P t') : P s' := by
  induction es generalizing s with
  | nil =>
    obtain rfl : s = s' := Option.some.inj hrun
    exact h0
  | cons e es ih =>
    obtain ⟨t, ht, hrun⟩ := Option.bind_eq_some_iff.1 hrun
    exact ih (h.2 t ht) hrun (hstep s e t h0 h.1 ht)

/-- What every step preserves needs no condition on the run. -/
theorem run_invariant {s s' : σ} {es : List ε} (hrun : run step s es = some s') (h0 : P s)
    (hstep : ∀ t e t', P t → step t e = some t' → P t') : P s' := by
  induction es generalizing s with
  | nil =>
    obtain rfl : s = s' := Option.some.inj hrun
    exact h0
  | cons e es ih =>
    obtain ⟨t, ht, hrun⟩ := Option.bind_eq_some_iff.1 hrun
    exact ih hrun (hstep s e t h0 ht)

end Fallible
