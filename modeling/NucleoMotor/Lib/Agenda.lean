import Mathlib.Data.List.Sort
import Mathlib.Data.List.TakeWhile
import Mathlib.Tactic

/-!
# Agendas: lists in the order of their deadlines

Every member `a` has a deadline `k a`.  `place` puts a new member after all that are due no later,
so an agenda stays `Sorted` and members due together stay in the order they came (`sublist_place`).
-/

namespace Agenda

variable {α τ : Type*} [LinearOrder τ] {k k' : α → τ} {a b : α} {l : List α}

def Sorted (k : α → τ) (l : List α) : Prop := l.Pairwise fun a b => k a ≤ k b

/-- After all that are due no later. -/
def place (k : α → τ) (a : α) (l : List α) : List α := l.orderedInsert (fun a b => k a < k b) a

/-- Where `place` puts the new member. -/
theorem exists_place (k : α → τ) (a : α) (l : List α) :
    ∃ l₁ l₂, l = l₁ ++ l₂ ∧ place k a l = l₁ ++ a :: l₂ ∧ (∀ b ∈ l₁, k b ≤ k a) ∧
      ∀ b ∈ l₂.head?, k a < k b := by
  refine ⟨l.takeWhile fun b => ¬ k a < k b, l.dropWhile fun b => ¬ k a < k b,
    List.takeWhile_append_dropWhile.symm, List.orderedInsert_eq_take_drop _ a l, ?_, ?_⟩
  · intro b hb
    simpa using List.mem_takeWhile_imp hb
  · intro b hb
    have hnot := List.head?_dropWhile_not (fun b => ¬ k a < k b) l
    rw [Option.mem_def.1 hb] at hnot
    simpa using hnot

theorem mem_place : b ∈ place k a l ↔ b = a ∨ b ∈ l := List.mem_orderedInsert _

theorem place_perm (k : α → τ) (a : α) (l : List α) : (place k a l).Perm (a :: l) :=
  List.perm_orderedInsert _ a l

theorem nodup_place (ha : a ∉ l) (hl : l.Nodup) : (place k a l).Nodup :=
  (place_perm k a l).nodup_iff.2 (List.nodup_cons.2 ⟨ha, hl⟩)

theorem Sorted.head_le (h : Sorted k (a :: l)) (hb : b ∈ a :: l) : k a ≤ k b := by
  rcases List.mem_cons.1 hb with rfl | hb
  · exact le_rfl
  · exact (List.pairwise_cons.1 h).1 b hb

theorem Sorted.tail (h : Sorted k (a :: l)) : Sorted k l := (List.pairwise_cons.1 h).2

/-- Only the deadlines of the members count. -/
theorem Sorted.congr (h : Sorted k l) (hk : ∀ a ∈ l, k' a = k a) : Sorted k' l :=
  h.imp_of_mem fun ha hb hab => by rwa [hk _ ha, hk _ hb]

theorem Sorted.erase [DecidableEq α] (h : Sorted k l) (a : α) : Sorted k (l.erase a) :=
  h.sublist List.erase_sublist

/-- **A new member keeps the order.** -/
theorem Sorted.place (h : Sorted k l) (a : α) : Sorted k (place k a l) := by
  obtain ⟨l₁, l₂, rfl, hplace, h₁, h₂⟩ := exists_place k a l
  obtain ⟨hl₁, hl₂, hl⟩ := List.pairwise_append.1 h
  rw [hplace]
  have hlater : ∀ b ∈ l₂, k a ≤ k b := by
    cases l₂ with
    | nil => simp
    | cons c l₂ => exact fun b hb => (h₂ c rfl).le.trans (Sorted.head_le hl₂ hb)
  refine List.pairwise_append.2 ⟨hl₁, List.pairwise_cons.2 ⟨hlater, hl₂⟩, fun b hb c hc => ?_⟩
  rcases List.mem_cons.1 hc with rfl | hc
  · exact h₁ b hb
  · exact hl b hb c hc

/-- A member that is due no later than a new one is before it. -/
theorem sublist_place (h : Sorted k l) (ha : a ∈ l) (hab : k a ≤ k b) :
    [a, b].Sublist (Agenda.place k b l) := by
  obtain ⟨l₁, l₂, rfl, hplace, -, h₂⟩ := exists_place k b l
  rw [hplace]
  have ha₁ : a ∈ l₁ := by
    refine (List.mem_append.1 ha).resolve_right fun ha₂ => ?_
    cases l₂ with
    | nil => cases ha₂
    | cons c l₂ =>
      have hlt := h₂ c rfl
      exact absurd (hlt.trans_le (Sorted.head_le (List.pairwise_append.1 h).2.1 ha₂)) hab.not_gt
  exact (List.singleton_sublist.2 ha₁).append (by simp : [b].Sublist (b :: l₂))

end Agenda
