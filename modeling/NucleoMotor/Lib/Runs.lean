import Mathlib.Data.List.Forall2
import Mathlib.Tactic

/-!
# Runs of a deterministic system

A system is a step function `step : σ → ε → σ`; a run is the list of the events it takes.

* `exec`: the state a run ends in; `AllSteps C`: every step of the run meets the condition `C`
  on the state before it and the event; `Always P`: `P` holds in every state the run visits.
* `AllSteps.invariant` and `AllSteps.always`: what every step preserves holds along the run.
* `count`: the number of steps that meet a condition, with `AllSteps.count_invariant` for
  invariants that depend on it.
* `always_iff_allSteps`: where a step keeps `P` exactly under `C`, a run keeps `P` throughout
  exactly when all its steps meet `C`.
* `exec_rel`: two runs whose events are related pairwise end in related states.
* `exec_image`: the image of a run under an abstraction that each event respects.
* `cut`: the part of a run before a given tick.
-/

namespace Runs

variable {σ τ ε δ : Type*}

/-- The state after the events `es`. -/
def exec (step : σ → ε → σ) (s : σ) (es : List ε) : σ := es.foldl step s

/-- Every step of the run meets `C`, a condition on the state before the step and the event. -/
def AllSteps (step : σ → ε → σ) (C : σ → ε → Prop) : σ → List ε → Prop
  | _, [] => True
  | s, e :: es => C s e ∧ AllSteps step C (step s e) es

instance AllSteps.decidable (step : σ → ε → σ) (C : σ → ε → Prop) [∀ s e, Decidable (C s e)] :
    ∀ (s : σ) (es : List ε), Decidable (AllSteps step C s es)
  | _, [] => isTrue trivial
  | s, e :: es =>
    have := AllSteps.decidable step C (step s e) es
    inferInstanceAs (Decidable (C s e ∧ AllSteps step C (step s e) es))

/-- `P` holds in every state the run visits, the first and the last included. -/
def Always (step : σ → ε → σ) (P : σ → Prop) (s : σ) (es : List ε) : Prop :=
  ∀ n, P (exec step s (es.take n))

variable {step : σ → ε → σ} {C D : σ → ε → Prop} {P Q : σ → Prop}

@[simp] theorem exec_nil (s : σ) : exec step s [] = s := rfl

@[simp] theorem exec_cons (s : σ) (e : ε) (es : List ε) :
    exec step s (e :: es) = exec step (step s e) es := rfl

@[simp] theorem exec_append (s : σ) (es fs : List ε) :
    exec step s (es ++ fs) = exec step (exec step s es) fs := by
  simp [exec, List.foldl_append]

@[simp] theorem allSteps_nil (s : σ) : AllSteps step C s [] := trivial

@[simp] theorem allSteps_cons {s : σ} {e : ε} {es : List ε} :
    AllSteps step C s (e :: es) ↔ C s e ∧ AllSteps step C (step s e) es := Iff.rfl

theorem allSteps_true (s : σ) (es : List ε) : AllSteps step (fun _ _ => True) s es := by
  induction es generalizing s with
  | nil => trivial
  | cons e es ih => exact ⟨trivial, ih _⟩

theorem allSteps_append {s : σ} {es fs : List ε} :
    AllSteps step C s (es ++ fs) ↔ AllSteps step C s es ∧ AllSteps step C (exec step s es) fs := by
  induction es generalizing s with
  | nil => simp
  | cons e es ih => simp [ih, and_assoc]

theorem AllSteps.take {s : σ} {es : List ε} (h : AllSteps step C s es) (n : ℕ) :
    AllSteps step C s (es.take n) := by
  rw [← List.take_append_drop n es, allSteps_append] at h
  exact h.1

theorem AllSteps.imp {s : σ} {es : List ε} (h : AllSteps step C s es)
    (hCD : ∀ t e, C t e → D t e) : AllSteps step D s es := by
  induction es generalizing s with
  | nil => trivial
  | cons e es ih => exact ⟨hCD s e h.1, ih h.2⟩

theorem AllSteps.and_mem {p : ε → Prop} {s : σ} {es : List ε} (h : AllSteps step C s es)
    (hp : ∀ e ∈ es, p e) : AllSteps step (fun t e => C t e ∧ p e) s es := by
  induction es generalizing s with
  | nil => trivial
  | cons e es ih =>
    obtain ⟨he, hes⟩ := List.forall_mem_cons.1 hp
    exact ⟨⟨h.1, he⟩, ih h.2 hes⟩

theorem AllSteps.and {s : σ} {es : List ε} (hC : AllSteps step C s es)
    (hD : AllSteps step D s es) : AllSteps step (fun t e => C t e ∧ D t e) s es := by
  induction es generalizing s with
  | nil => trivial
  | cons e es ih => exact ⟨⟨hC.1, hD.1⟩, ih hC.2 hD.2⟩

/-! ### The invariant rule -/

/-- What holds at the start and is preserved by every step holds at the end. -/
theorem AllSteps.invariant {s : σ} {es : List ε} (h : AllSteps step C s es) (h0 : P s)
    (hstep : ∀ t e, P t → C t e → P (step t e)) : P (exec step s es) := by
  induction es generalizing s with
  | nil => exact h0
  | cons e es ih => exact ih h.2 (hstep s e h0 h.1)

/-- What every step preserves needs no condition on the run. -/
theorem exec_invariant {s : σ} (h0 : P s) (hstep : ∀ t e, P t → P (step t e)) (es : List ε) :
    P (exec step s es) := by
  induction es generalizing s with
  | nil => exact h0
  | cons e es ih => exact ih (hstep s e h0)

/-- Steps from states of an invariant meet what the invariant grants them. -/
theorem allSteps_of_invariant {s : σ} (h0 : P s) (hstep : ∀ t e, P t → P (step t e))
    (hC : ∀ t e, P t → C t e) (es : List ε) : AllSteps step C s es := by
  induction es generalizing s with
  | nil => trivial
  | cons e es ih => exact ⟨hC s e h0, ih (hstep s e h0)⟩

/-- The same in every state on the way. -/
theorem AllSteps.always {s : σ} {es : List ε} (h : AllSteps step C s es) (h0 : P s)
    (hstep : ∀ t e, P t → C t e → P (step t e)) : Always step P s es :=
  fun n => (h.take n).invariant h0 hstep

theorem always_cons {s : σ} {e : ε} {es : List ε} :
    Always step P s (e :: es) ↔ P s ∧ Always step P (step s e) es := by
  constructor
  · intro h
    exact ⟨h 0, fun n => h (n + 1)⟩
  · rintro ⟨h0, h⟩ (_ | n)
    · exact h0
    · exact h n

theorem always_nil {s : σ} : Always step P s [] ↔ P s := by simp [Always]

/-- **The exact-condition rule.** If, within the invariant `Q` of the steps allowed by `D`, a
step from a `P`-state leads to a `P`-state exactly under `C`, then a run of allowed steps visits
`P`-states only exactly when all its steps meet `C`. -/
theorem always_iff_allSteps {s : σ} {es : List ε} (hD : AllSteps step D s es) (hQ : Q s)
    (hP : P s) (hinv : ∀ t e, Q t → D t e → Q (step t e))
    (hstep : ∀ t e, Q t → P t → D t e → (P (step t e) ↔ C t e)) :
    Always step P s es ↔ AllSteps step C s es := by
  induction es generalizing s with
  | nil => simpa [always_nil] using hP
  | cons e es ih =>
    have hiff := hstep s e hQ hP hD.1
    rw [always_cons, allSteps_cons]
    constructor
    · rintro ⟨-, h⟩
      have hP' : P (step s e) := h 0
      exact ⟨hiff.1 hP', (ih hD.2 (hinv s e hQ hD.1) hP').1 h⟩
    · rintro ⟨hc, h⟩
      have hP' : P (step s e) := hiff.2 hc
      exact ⟨hP, (ih hD.2 (hinv s e hQ hD.1) hP').2 h⟩

/-! ### Counting steps -/

/-- The number of steps of the run that meet `C`. -/
def count (step : σ → ε → σ) (C : σ → ε → Prop) [∀ s e, Decidable (C s e)] : σ → List ε → ℕ
  | _, [] => 0
  | s, e :: es => (if C s e then 1 else 0) + count step C (step s e) es

theorem count_append [∀ s e, Decidable (C s e)] (s : σ) (es fs : List ε) :
    count step C s (es ++ fs) = count step C s es + count step C (exec step s es) fs := by
  induction es generalizing s with
  | nil => simp [count]
  | cons e es ih => simp [count, ih, add_assoc]

/-- **The counting rule.** What the steps that meet `C` take from `n` to `n + 1`, and the others
keep at `n`, holds at the end for the number of the steps that meet `C`. -/
theorem AllSteps.count_invariant [∀ s e, Decidable (C s e)] {P : ℕ → σ → Prop} {s : σ}
    {es : List ε} (h : AllSteps step D s es) {n : ℕ} (h0 : P n s)
    (hstep : ∀ n t e, P n t → D t e → P (n + if C t e then 1 else 0) (step t e)) :
    P (n + count step C s es) (exec step s es) := by
  induction es generalizing s n with
  | nil => exact h0
  | cons e es ih =>
    rw [count, ← add_assoc]
    exact ih h.2 (hstep n s e h0 h.1)

/-! ### Two runs -/

/-- Runs whose events are related pairwise keep related states related. -/
theorem exec_rel {step' : τ → δ → τ} {R : σ → τ → Prop} {E : ε → δ → Prop}
    (hstep : ∀ s t e d, R s t → E e d → R (step s e) (step' t d))
    {s : σ} {t : τ} (h0 : R s t) {es : List ε} {ds : List δ} (h : List.Forall₂ E es ds) :
    R (exec step s es) (exec step' t ds) := by
  induction h generalizing s t with
  | nil => exact h0
  | cons hed _ ih => exact ih (hstep s t _ _ h0 hed)

/-- The same for one run and its image under a translation of the events, along steps that meet
a condition. -/
theorem AllSteps.rel_map {step' : τ → δ → τ} {R : σ → τ → Prop} {f : ε → δ} {s : σ} {t : τ}
    {es : List ε} (h : AllSteps step C s es) (h0 : R s t)
    (hstep : ∀ s t e, R s t → C s e → R (step s e) (step' t (f e))) :
    R (exec step s es) (exec step' t (es.map f)) := by
  induction es generalizing s t with
  | nil => exact h0
  | cons e es ih => exact ih h.2 (hstep s t e h0 h.1)

/-! ### Observations -/

/-- What a run shows when the event `e` in the state `s` shows the list `g s e`. -/
def image (step : σ → ε → σ) (g : σ → ε → List δ) : σ → List ε → List δ
  | _, [] => []
  | s, e :: es => g s e ++ image step g (step s e) es

/-- **The abstraction rule.** If, within the invariant `Q` of the steps allowed by `C`, the
abstraction `f` plays every event by the abstract events that it shows, then it plays runs so. -/
theorem exec_image {step' : τ → δ → τ} {f : σ → τ} {g : σ → ε → List δ} {s : σ} {es : List ε}
    (h : AllSteps step C s es) (hQ : Q s) (hinv : ∀ t e, Q t → C t e → Q (step t e))
    (hstep : ∀ t e, Q t → C t e → f (step t e) = exec step' (f t) (g t e)) :
    f (exec step s es) = exec step' (f s) (image step g s es) := by
  induction es generalizing s with
  | nil => rfl
  | cons e es ih =>
    have hrest := ih h.2 (hinv s e hQ h.1)
    rw [exec_cons, hrest, hstep s e hQ h.1, image, exec_append]

/-- The conditions on the steps carry over to the abstract run. -/
theorem allSteps_image {step' : τ → δ → τ} {f : σ → τ} {g : σ → ε → List δ}
    {C' : τ → δ → Prop} (hstep : ∀ s e, f (step s e) = exec step' (f s) (g s e))
    (hC : ∀ s e, C s e → AllSteps step' C' (f s) (g s e)) {s : σ} {es : List ε}
    (h : AllSteps step C s es) : AllSteps step' C' (f s) (image step g s es) := by
  induction es generalizing s with
  | nil => trivial
  | cons e es ih =>
    rw [image, allSteps_append]
    refine ⟨hC s e h.1, ?_⟩
    rw [← hstep]
    exact ih h.2

/-! ### Measuring a run -/

/-- The sum of what `m` says of the steps. -/
def total (step : σ → ε → σ) (m : σ → ε → ℕ) : σ → List ε → ℕ
  | _, [] => 0
  | s, e :: es => m s e + total step m (step s e) es

theorem total_zero {s : σ} {es : List ε} : total step (fun _ _ => 0) s es = 0 := by
  induction es generalizing s with
  | nil => rfl
  | cons e es ih => simp [total, ih]

theorem total_add {m m' : σ → ε → ℕ} {s : σ} {es : List ε} :
    total step (fun s e => m s e + m' s e) s es = total step m s es + total step m' s es := by
  induction es generalizing s with
  | nil => rfl
  | cons e es ih =>
    simp only [total, ih]
    omega

theorem countP_image {g : σ → ε → List δ} {p : δ → Bool} {s : σ} {es : List ε} :
    (image step g s es).countP p = total step (fun s e => (g s e).countP p) s es := by
  induction es generalizing s with
  | nil => rfl
  | cons e es ih => simp [image, total, ih]

theorem count_image [BEq δ] {g : σ → ε → List δ} {d : δ} {s : σ} {es : List ε} :
    (image step g s es).count d = total step (fun s e => (g s e).count d) s es :=
  countP_image

/-- Two measures that agree on the steps agree on the run. -/
theorem AllSteps.total_congr {m m' : σ → ε → ℕ} {s : σ} {es : List ε} (h : AllSteps step C s es)
    (h0 : P s) (hstep : ∀ t e, P t → C t e → P (step t e))
    (hm : ∀ t e, P t → C t e → m t e = m' t e) : total step m s es = total step m' s es := by
  induction es generalizing s with
  | nil => rfl
  | cons e es ih =>
    have hrest := ih h.2 (hstep s e h0 h.1)
    rw [total, total, hrest, hm s e h0 h.1]

/-- What the steps add to a stock and take from it is what the run does. -/
theorem AllSteps.total_balance (stock : σ → ℕ) {taken added : σ → ε → ℕ} {s : σ} {es : List ε}
    (h : AllSteps step C s es) (h0 : P s) (hstep : ∀ t e, P t → C t e → P (step t e))
    (hstock : ∀ t e, P t → C t e → stock (step t e) + taken t e = stock t + added t e) :
    stock (exec step s es) + total step taken s es = stock s + total step added s es := by
  induction es generalizing s with
  | nil => rfl
  | cons e es ih =>
    have hrest := ih h.2 (hstep s e h0 h.1)
    have hfirst := hstock s e h0 h.1
    simp only [exec_cons, total]
    omega

/-! ### Cutting a run at a tick -/

/-- The events before the `n`-th later one, counted from `0`, that satisfies `tick`. -/
def cut (tick : ε → Bool) : ℕ → List ε → List ε
  | _, [] => []
  | n, e :: es =>
    match tick e, n with
    | false, n => e :: cut tick n es
    | true, 0 => []
    | true, n + 1 => e :: cut tick n es

/-- A cut is an initial part of the run. -/
theorem cut_prefix (tick : ε → Bool) (n : ℕ) (es : List ε) : cut tick n es <+: es := by
  induction es generalizing n with
  | nil => exact List.nil_prefix
  | cons e es ih =>
    unfold cut
    split
    · exact (List.prefix_cons_inj e).2 (ih _)
    · exact List.nil_prefix
    · exact (List.prefix_cons_inj e).2 (ih _)

theorem AllSteps.cut {s : σ} {es : List ε} (h : AllSteps step C s es) (tick : ε → Bool) (n : ℕ) :
    AllSteps step C s (Runs.cut tick n es) := by
  obtain ⟨fs, hfs⟩ := cut_prefix tick n es
  rw [← hfs, allSteps_append] at h
  exact h.1

theorem map_cut {f : ε → δ} {tick : δ → Bool} (n : ℕ) (es : List ε) :
    (cut (fun e => tick (f e)) n es).map f = cut tick n (es.map f) := by
  induction es generalizing n with
  | nil => rfl
  | cons e es ih => cases h : tick (f e) <;> cases n <;> simp [cut, h, ih]

/-- Observations that show a tick as one tick and other events without ticks keep cuts. -/
theorem image_cut {g : σ → ε → List δ} {tick : ε → Bool} {tick' : δ → Bool}
    (htick : ∀ s e, tick e = true → ∃ d, g s e = [d] ∧ tick' d = true)
    (hother : ∀ s e, tick e = false → ∀ d ∈ g s e, tick' d = false) (s : σ) (n : ℕ)
    (es : List ε) : image step g s (cut tick n es) = cut tick' n (image step g s es) := by
  have hskip (ds rest : List δ) (n : ℕ) (h : ∀ d ∈ ds, tick' d = false) :
      cut tick' n (ds ++ rest) = ds ++ cut tick' n rest := by
    induction ds with
    | nil => rfl
    | cons d ds ih =>
      rw [List.forall_mem_cons] at h
      simp [cut, h.1, ih h.2]
  induction es generalizing s n with
  | nil => cases n <;> rfl
  | cons e es ih =>
    cases he : tick e with
    | false => simp [cut, he, image, ih, hskip _ _ n (hother s e he)]
    | true =>
      obtain ⟨d, hd, hd'⟩ := htick s e he
      cases n with
      | zero => simp [cut, he, image, hd, hd']
      | succ n => simp [cut, he, image, hd, hd', ih]

end Runs
