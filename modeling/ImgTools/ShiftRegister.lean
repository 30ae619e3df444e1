import Mathlib.Algebra.Field.ZMod
import Mathlib.Algebra.Polynomial.Div
import Mathlib.RingTheory.AdjoinRoot

/-!
# Reflected shift registers

Division of polynomials over the field of two elements by a shift register that
keeps the coefficient of the highest power in its low bit. `poly r` is the
polynomial of a register, a `step` is a multiplication by `X` modulo
`modulus q`, and a message that is absorbed chunk by chunk leaves the remainder
of its polynomial. Register, chunk and feedback are of arbitrary widths.
-/

namespace ShiftRegister

open Polynomial

variable {w : Nat}

noncomputable def poly (r : BitVec w) : (ZMod 2)[X] :=
  ∑ j ∈ Finset.range w, if r.getLsbD j then X ^ (w - 1 - j) else 0

theorem coeff_poly (r : BitVec w) {j : Nat} (hj : j < w) :
    (poly r).coeff (w - 1 - j) = if r.getLsbD j then 1 else 0 := by
  rw [poly, finsetSum_coeff, Finset.sum_eq_single j]
  · split <;> simp
  · intro i hi hne
    have hlt := Finset.mem_range.mp hi
    split
    · rw [coeff_X_pow, if_neg (by omega)]
    · exact coeff_zero _
  · intro hnot
    exact absurd (Finset.mem_range.mpr hj) hnot

theorem degree_poly_lt (r : BitVec w) : (poly r).degree < w := by
  rw [degree_lt_iff_coeff_zero]
  intro n hn
  rw [poly, finsetSum_coeff]
  refine Finset.sum_eq_zero ?_
  intro j hj
  have hlt := Finset.mem_range.mp hj
  split
  · rw [coeff_X_pow, if_neg (by omega)]
  · exact coeff_zero _

theorem poly_inj {a b : BitVec w} (h : poly a = poly b) : a = b := by
  refine BitVec.eq_of_getLsbD_eq fun j hj => ?_
  have hcoeff := coeff_poly a hj
  rw [h, coeff_poly b hj] at hcoeff
  revert hcoeff
  cases a.getLsbD j <;> cases b.getLsbD j <;> simp

theorem poly_xor (a b : BitVec w) : poly (a ^^^ b) = poly a + poly b := by
  unfold poly
  rw [← Finset.sum_add_distrib]
  refine Finset.sum_congr rfl fun j _ => ?_
  rw [BitVec.getLsbD_xor]
  have htwo : (X : (ZMod 2)[X]) ^ (w - 1 - j) + X ^ (w - 1 - j) = 0 := CharTwo.add_self_eq_zero _
  cases a.getLsbD j <;> cases b.getLsbD j <;> simp [htwo]

/-- Multiplication by `X` moves the register down, and its low bit out. -/
theorem X_mul_poly (r : BitVec w) :
    X * poly r = (if r.getLsbD 0 then X ^ w else 0) + poly (r >>> 1) := by
  cases w with
  | zero => simp [poly]
  | succ v =>
    have hlast : (r >>> 1).getLsbD v = false := by
      rw [BitVec.getLsbD_ushiftRight]
      exact BitVec.getLsbD_of_ge r (1 + v) (by omega)
    have hleft : X * poly r =
        ∑ j ∈ Finset.range (v + 1), if r.getLsbD j then (X : (ZMod 2)[X]) ^ (v + 1 - j) else 0 := by
      rw [poly, Finset.mul_sum]
      refine Finset.sum_congr rfl fun j hj => ?_
      have hlt := Finset.mem_range.mp hj
      rw [mul_ite, mul_zero, ← pow_succ']
      congr 2
      omega
    rw [hleft, Finset.sum_range_succ', add_comm, poly, Finset.sum_range_succ, hlast]
    simp [BitVec.getLsbD_ushiftRight, Nat.add_comm 1]

/-! ### One step -/

/-- Shift out the low bit, and feed it back. -/
def step (q r : BitVec w) : BitVec w := if r.getLsbD 0 then (r >>> 1) ^^^ q else r >>> 1

/-- The polynomial that feedback of `q` divides by. -/
noncomputable def modulus (q : BitVec w) : (ZMod 2)[X] := X ^ w + poly q

theorem monic_modulus (q : BitVec w) : (modulus q).Monic :=
  monic_X_pow_add (degree_poly_lt q)

theorem degree_modulus (q : BitVec w) : (modulus q).degree = w := by
  rw [modulus, degree_add_eq_left_of_degree_lt]
  · exact degree_X_pow w
  · rw [degree_X_pow]
    exact degree_poly_lt q

theorem poly_modByMonic (q r : BitVec w) : poly r %ₘ modulus q = poly r := by
  rw [modByMonic_eq_self_iff (monic_modulus q), degree_modulus]
  exact degree_poly_lt r

noncomputable abbrev residue (q : BitVec w) : (ZMod 2)[X] →+* AdjoinRoot (modulus q) :=
  AdjoinRoot.mk (modulus q)

theorem eq_modByMonic {q r : BitVec w} {p : (ZMod 2)[X]} (h : residue q p = residue q (poly r)) :
    p %ₘ modulus q = poly r := by
  rw [modByMonic_eq_of_dvd_sub (monic_modulus q) (AdjoinRoot.mk_eq_mk.mp h), poly_modByMonic]

/-- **A step multiplies by `X`.** -/
theorem residue_step (q r : BitVec w) :
    residue q (poly (step q r)) = residue q X * residue q (poly r) := by
  rw [← map_mul, X_mul_poly]
  unfold step
  cases hlow : r.getLsbD 0 with
  | false => simp
  | true =>
    have hsplit : X ^ w + poly (r >>> 1) = modulus q + (poly (r >>> 1) + poly q) := by
      have htwo : poly q + poly q = 0 := CharTwo.add_self_eq_zero _
      calc X ^ w + poly (r >>> 1)
          = X ^ w + poly (r >>> 1) + (poly q + poly q) := by rw [htwo, add_zero]
        _ = modulus q + (poly (r >>> 1) + poly q) := by rw [modulus]; ring
    simp only [if_true, poly_xor]
    rw [hsplit, map_add (residue q) (modulus q), AdjoinRoot.mk_self, zero_add]

theorem residue_steps (q r : BitVec w) (n : Nat) :
    residue q (poly ((step q)^[n] r)) = residue q X ^ n * residue q (poly r) := by
  induction n with
  | zero => simp
  | succ n ih => rw [Function.iterate_succ_apply', residue_step, ih, pow_succ', mul_assoc]

theorem steps_xor (q a b : BitVec w) (n : Nat) :
    (step q)^[n] (a ^^^ b) = (step q)^[n] a ^^^ (step q)^[n] b := by
  apply poly_inj
  have hresidue : residue q (poly ((step q)^[n] a ^^^ (step q)^[n] b)) =
      residue q (poly ((step q)^[n] (a ^^^ b))) := by
    rw [poly_xor, map_add, residue_steps, residue_steps, residue_steps, poly_xor, map_add, mul_add]
  rw [← eq_modByMonic hresidue, poly_modByMonic]

/-- Steps that shift out no bit that is set. -/
theorem steps_of_clear (q : BitVec w) {r : BitVec w} (n : Nat) (h : ∀ j < n, r.getLsbD j = false) :
    (step q)^[n] r = r >>> n := by
  induction n with
  | zero => simp
  | succ n ih =>
    have hlow : (r >>> n).getLsbD 0 = false := by
      rw [BitVec.getLsbD_ushiftRight]
      exact h n (Nat.lt_succ_self n)
    rw [Function.iterate_succ_apply', ih fun j hj => h j (Nat.lt_succ_of_lt hj), step, hlow,
      BitVec.shiftRight_add]
    simp

/-! ### Chunks of a message -/

variable {k : Nat}

/-- A chunk of `k` bits enters at the low end of the register. -/
def absorb (q r : BitVec w) (c : BitVec k) : BitVec w := (step q)^[k] (r ^^^ c.setWidth w)

theorem poly_setWidth (h : k ≤ w) (c : BitVec k) :
    X ^ k * poly (c.setWidth w) = X ^ w * poly c := by
  have hsub : Finset.range k ⊆ Finset.range w := Finset.range_subset_range.mpr h
  rw [poly, poly, Finset.mul_sum, Finset.mul_sum, ← Finset.sum_subset hsub]
  · refine Finset.sum_congr rfl fun j hj => ?_
    have hlt := Finset.mem_range.mp hj
    have hbit : (c.setWidth w).getLsbD j = c.getLsbD j := by
      rw [BitVec.getLsbD_setWidth, decide_eq_true (Nat.lt_of_lt_of_le hlt h), Bool.true_and]
    have hexponent : k + (w - 1 - j) = w + (k - 1 - j) := by omega
    rw [hbit, mul_ite, mul_ite, mul_zero, mul_zero, ← pow_add, ← pow_add, hexponent]
  · intro j _ hnot
    have hbit : (c.setWidth w).getLsbD j = false := by
      rw [BitVec.getLsbD_setWidth, BitVec.getLsbD_of_ge c j (by simpa using hnot), Bool.and_false]
    rw [hbit]
    exact mul_zero _

/-- The polynomial of a message, from the highest power on. -/
noncomputable def message : List (BitVec k) → (ZMod 2)[X]
  | [] => 0
  | c :: rest => poly c * X ^ (k * rest.length) + message rest

theorem residue_absorb (h : k ≤ w) (q r : BitVec w) (c : BitVec k) :
    residue q (poly (absorb q r c)) = residue q (X ^ k * poly r + X ^ w * poly c) := by
  rw [absorb, residue_steps, poly_xor, ← poly_setWidth h, ← map_pow, ← map_mul, mul_add]

theorem residue_foldl_absorb (h : k ≤ w) (q : BitVec w) (cs : List (BitVec k)) (r : BitVec w) :
    residue q (poly (cs.foldl (absorb q) r)) =
      residue q (message cs * X ^ w + poly r * X ^ (k * cs.length)) := by
  induction cs generalizing r with
  | nil => simp [message]
  | cons c cs ih =>
    rw [List.foldl_cons, ih, map_add, map_mul _ (poly _), residue_absorb h, ← map_mul, ← map_add,
      message, List.length_cons]
    refine congrArg _ ?_
    ring

/-- **The register of a message is a remainder.** -/
theorem poly_foldl_absorb (h : k ≤ w) (q : BitVec w) (cs : List (BitVec k)) (r : BitVec w) :
    poly (cs.foldl (absorb q) r) =
      (message cs * X ^ w + poly r * X ^ (k * cs.length)) %ₘ modulus q :=
  (eq_modByMonic (residue_foldl_absorb h q cs r).symm).symm

/-- **A chunk at once.** The steps of a chunk are those of the low end of the
    register alone, which a table can hold, and a shift of the rest. -/
theorem absorb_eq_lookup (q r : BitVec w) (c : BitVec k) :
    absorb q r c = (step q)^[k] ((r.setWidth k ^^^ c).setWidth w) ^^^ r >>> k := by
  have hsplit : r ^^^ c.setWidth w = (r.setWidth k ^^^ c).setWidth w ^^^ (r >>> k) <<< k := by
    refine BitVec.eq_of_getLsbD_eq fun j hj => ?_
    simp only [BitVec.getLsbD_xor, BitVec.getLsbD_setWidth, BitVec.getLsbD_shiftLeft,
      BitVec.getLsbD_ushiftRight]
    rcases Nat.lt_or_ge j k with hlow | hhigh
    · simp [hj, hlow]
    · have hsum : k + (j - k) = j := Nat.add_sub_cancel' hhigh
      simp [hj, Nat.not_lt.mpr hhigh, hsum, BitVec.getLsbD_of_ge c j hhigh]
  have hclear : ∀ j < k, ((r >>> k) <<< k).getLsbD j = false := by
    intro j hj
    simp [BitVec.getLsbD_shiftLeft, hj]
  have hback : (r >>> k) <<< k >>> k = r >>> k := by
    refine BitVec.eq_of_getLsbD_eq fun j hj => ?_
    simp only [BitVec.getLsbD_shiftLeft, BitVec.getLsbD_ushiftRight]
    rcases Nat.lt_or_ge (k + j) w with hinside | houtside
    · simp [hinside]
    · simp [BitVec.getLsbD_of_ge r (k + j) houtside]
  rw [absorb, hsplit, steps_xor, steps_of_clear q k hclear, hback]

end ShiftRegister
