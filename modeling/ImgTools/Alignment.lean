import Mathlib.Algebra.Order.Floor.Div
import Mathlib.Tactic.Ring

/-!
# Rounding up to a multiple

`roundUp n a` is the least multiple of `a` that is not below `n`.
-/

namespace Alignment

def roundUp (n a : Nat) : Nat := a * (n ⌈/⌉ a)

variable {a : Nat}

theorem dvd_roundUp (n a : Nat) : a ∣ roundUp n a := Nat.dvd_mul_right a _

theorem roundUp_le_iff (ha : 0 < a) {n m : Nat} (hm : a ∣ m) : roundUp n a ≤ m ↔ n ≤ m := by
  obtain ⟨k, rfl⟩ := hm
  rw [roundUp, Nat.mul_le_mul_left_iff ha, ceilDiv_le_iff_le_mul ha]

theorem le_roundUp (ha : 0 < a) (n : Nat) : n ≤ roundUp n a :=
  (roundUp_le_iff ha (dvd_roundUp n a)).mp (Nat.le_refl _)

theorem roundUp_of_dvd (ha : 0 < a) {n : Nat} (h : a ∣ n) : roundUp n a = n :=
  Nat.le_antisymm ((roundUp_le_iff ha h).mpr (Nat.le_refl n)) (le_roundUp ha n)

theorem roundUp_eq (ha : 0 < a) (n : Nat) :
    roundUp n a = if n % a = 0 then n else n + (a - n % a) := by
  split
  · next h => exact roundUp_of_dvd ha (Nat.dvd_of_mod_eq_zero h)
  · next h =>
    have hlt := Nat.mod_lt n ha
    have hdiv := Nat.div_add_mod n a
    have hsum : n + (a - n % a) = a * (n / a + 1) := by
      rw [Nat.mul_add, Nat.mul_one]
      omega
    rw [hsum, roundUp, Nat.ceilDiv_eq_add_pred_div]
    congr 1
    rw [Nat.div_eq_iff ha, Nat.add_mul, Nat.one_mul, Nat.mul_comm (n / a)]
    omega

theorem roundUp_lt_add (ha : 0 < a) (n : Nat) : roundUp n a < n + a := by
  rw [roundUp_eq ha]
  split <;> omega

theorem roundUp_add_of_dvd (ha : 0 < a) {m : Nat} (hm : a ∣ m) (n : Nat) :
    roundUp (m + n) a = m + roundUp n a := by
  obtain ⟨k, rfl⟩ := hm
  rw [roundUp_eq ha, roundUp_eq ha, Nat.mul_add_mod]
  split <;> omega

end Alignment
