import Mathlib.Data.Nat.ModEq
import Mathlib.Tactic

/-!
# Counters that wrap around

A counter of `b` bits, read into words of `w ≥ b` bits, shows the number of ticks modulo `2 ^ b`.

* `elapsed`: the masked difference of two readings is the number of ticks between them, modulo
  `2 ^ b`.
* `advance`: a reading moved on by a number of ticks.
* `passed_iff`: whether the counter has come to a mark, from two readings and the mark shown.
-/

namespace Wrap

/-- What a counter of `b` bits shows after `n` ticks. -/
def shown (w b n : ℕ) : BitVec w := BitVec.ofNat w (n % 2 ^ b)

def mask (w b : ℕ) : BitVec w := BitVec.ofNat w (2 ^ b - 1)

variable {w b c d m n s : ℕ}

theorem pow_dvd (hb : b ≤ w) : 2 ^ b ∣ 2 ^ w := pow_dvd_pow 2 hb

@[simp] theorem toNat_shown (hb : b ≤ w) : (shown w b n).toNat = n % 2 ^ b := by
  have hlt : n % 2 ^ b < 2 ^ w :=
    (Nat.mod_lt n (by positivity)).trans_le (Nat.pow_le_pow_right (by omega) hb)
  rw [shown, BitVec.toNat_ofNat, Nat.mod_eq_of_lt hlt]

theorem toNat_and_mask (hb : b ≤ w) (x : BitVec w) : (x &&& mask w b).toNat = x.toNat % 2 ^ b := by
  have hlt : 2 ^ b - 1 < 2 ^ w := by
    have h1 : 2 ^ b ≤ 2 ^ w := Nat.pow_le_pow_right (by omega) hb
    have h2 : 0 < 2 ^ b := by positivity
    omega
  rw [BitVec.toNat_and, mask, BitVec.toNat_ofNat, Nat.mod_eq_of_lt hlt,
    Nat.and_two_pow_sub_one_eq_mod]

/-- **The masked difference of two readings** counts the ticks between them modulo `2 ^ b`. -/
theorem elapsed (hb : b ≤ w) (h : s ≤ c) :
    ((shown w b c - shown w b s) &&& mask w b).toNat = (c - s) % 2 ^ b := by
  have hs : s % 2 ^ b < 2 ^ w :=
    (Nat.mod_lt s (by positivity)).trans_le (Nat.pow_le_pow_right (by omega) hb)
  rw [toNat_and_mask hb, BitVec.toNat_sub, toNat_shown hb, toNat_shown hb,
    Nat.mod_mod_of_dvd _ (pow_dvd hb)]
  refine Nat.ModEq.add_right_cancel' s ?_
  have hsplit : 2 ^ w - s % 2 ^ b + c % 2 ^ b + s = 2 ^ w + 2 ^ b * (s / 2 ^ b) + c % 2 ^ b := by
    have := Nat.mod_add_div s (2 ^ b)
    omega
  have hw : 2 ^ w + 2 ^ b * (s / 2 ^ b) ≡ 0 [MOD 2 ^ b] :=
    (Nat.modEq_zero_iff_dvd.2 (pow_dvd hb)).add (Nat.modEq_zero_iff_dvd.2 (dvd_mul_right _ _))
  rw [hsplit, Nat.sub_add_cancel h]
  calc 2 ^ w + 2 ^ b * (s / 2 ^ b) + c % 2 ^ b ≡ 0 + c [MOD 2 ^ b] := hw.add (Nat.mod_modEq c _)
    _ = c := Nat.zero_add c

/-- A reading moved on by `d` ticks. -/
theorem advance (hb : b ≤ w) :
    (shown w b s + BitVec.ofNat w d) &&& mask w b = shown w b (s + d) := by
  rw [← BitVec.toNat_inj, toNat_and_mask hb, BitVec.toNat_add, toNat_shown hb, toNat_shown hb,
    BitVec.toNat_ofNat, Nat.mod_mod_of_dvd _ (pow_dvd hb)]
  have hd : d % 2 ^ w ≡ d [MOD 2 ^ b] := (Nat.mod_modEq d (2 ^ w)).of_dvd (pow_dvd hb)
  exact (Nat.mod_modEq s (2 ^ b)).add hd

/-- Readings less than a round apart: the later one shows less exactly when it is past the wrap. -/
theorem mod_add_eq (hd : d < 2 ^ b) :
    (s + d) % 2 ^ b = if s % 2 ^ b + d < 2 ^ b then s % 2 ^ b + d else s % 2 ^ b + d - 2 ^ b := by
  have hs : s % 2 ^ b < 2 ^ b := Nat.mod_lt s (by positivity)
  rw [Nat.add_mod, Nat.mod_eq_of_lt hd]
  split_ifs with h
  · exact Nat.mod_eq_of_lt h
  · rw [Nat.mod_eq_sub_mod (by omega), Nat.mod_eq_of_lt (by omega)]

/-- **Has the counter come to the mark?**  From a reading `s`, a reading less than a round later
and a mark at most a round ahead. -/
theorem passed_iff (hc : c < 2 ^ b) (hm0 : 0 < m) (hm : m ≤ 2 ^ b) :
    (if (s + m) % 2 ^ b > s % 2 ^ b then
      (s + c) % 2 ^ b ≥ (s + m) % 2 ^ b ∨ (s + c) % 2 ^ b < s % 2 ^ b
      else (s + c) % 2 ^ b < s % 2 ^ b ∧ (s + c) % 2 ^ b ≥ (s + m) % 2 ^ b) ↔ m ≤ c := by
  have hs : s % 2 ^ b < 2 ^ b := Nat.mod_lt s (by positivity)
  rw [mod_add_eq hc]
  rcases hm.lt_or_eq with hm | rfl
  · rw [mod_add_eq hm]
    split_ifs <;> omega
  · rw [Nat.add_mod_right]
    split_ifs <;> omega

end Wrap
