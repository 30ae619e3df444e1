import Mathlib.GroupTheory.OrderOfElement
import ImgTools.Bursts

/-!
# The period of a shift register

How often a register has to be stepped before it repeats is the order of `X`
modulo the polynomial of its feedback. Registers are multiplied by Horner's rule
and raised to a power by squaring, so that an order of many digits is certified
by a few hundred products. Two messages that differ in two bits leave the same
register exactly when the period divides the distance of the bits.
-/

namespace ShiftRegister

open Polynomial

variable {w k : Nat}

/-! ### Products of registers -/

def one : BitVec w := BitVec.twoPow w (w - 1)

/-- Horner's rule: the coefficients of `a` from the highest power on. -/
def mul (q a b : BitVec w) : BitVec w :=
  (List.range w).foldl (fun acc j => if a.getLsbD j then step q acc ^^^ b else step q acc) 0

/-- The power of an exponent of at most `count` bits. -/
def power (q r : BitVec w) : (count exponent : Nat) → BitVec w
  | 0, _ => one
  | count + 1, exponent =>
    let half := power q r count (exponent / 2)
    let square := mul q half half
    if exponent % 2 = 1 then mul q r square else square

theorem poly_one (hw : 0 < w) : poly (one : BitVec w) = 1 := by
  rw [poly, Finset.sum_eq_single (w - 1)]
  · simp [one, hw]
  · intro j hj hne
    have hlt := Finset.mem_range.mp hj
    rw [if_neg]
    rw [one, BitVec.getLsbD_twoPow]
    simp [hne.symm]
  · intro hnot
    exact absurd (Finset.mem_range.mpr (Nat.sub_lt hw Nat.one_pos)) hnot

theorem residue_poly_inj {q a b : BitVec w} (h : residue q (poly a) = residue q (poly b)) :
    a = b := by
  apply poly_inj
  rw [← eq_modByMonic h, poly_modByMonic]

/-- What Horner's rule has come to after `n` coefficients. -/
theorem residue_horner (q a b : BitVec w) (n : Nat) :
    residue q (poly ((List.range n).foldl
      (fun acc j => if a.getLsbD j then step q acc ^^^ b else step q acc) 0)) =
      residue q (∑ j ∈ Finset.range n, if a.getLsbD j then X ^ (n - 1 - j) else 0) *
        residue q (poly b) := by
  induction n with
  | zero => simp [poly]
  | succ n ih =>
    have hshift : (∑ j ∈ Finset.range n, if a.getLsbD j then (X : (ZMod 2)[X]) ^ (n - j) else 0) =
        X * ∑ j ∈ Finset.range n, if a.getLsbD j then X ^ (n - 1 - j) else 0 := by
      rw [Finset.mul_sum]
      refine Finset.sum_congr rfl fun j hj => ?_
      have hexponent : n - j = n - 1 - j + 1 := by
        have hlt := Finset.mem_range.mp hj
        omega
      rw [hexponent, pow_succ', mul_ite, mul_zero]
    rw [List.range_succ, List.foldl_append, Finset.sum_range_succ, Nat.add_sub_cancel, hshift,
      Nat.sub_self, pow_zero]
    show residue q (poly (if a.getLsbD n then step q _ ^^^ b else step q _)) = _
    cases a.getLsbD n with
    | false =>
      rw [if_neg Bool.false_ne_true, if_neg Bool.false_ne_true, add_zero, residue_step, ih,
        map_mul, mul_assoc]
    | true =>
      rw [if_pos rfl, if_pos rfl, poly_xor, map_add, residue_step, ih, map_add, map_mul, map_one,
        add_mul, one_mul, mul_assoc]

theorem residue_mul (q a b : BitVec w) :
    residue q (poly (mul q a b)) = residue q (poly a) * residue q (poly b) :=
  residue_horner q a b w

theorem residue_power (hw : 0 < w) (q r : BitVec w) {count exponent : Nat}
    (h : exponent < 2 ^ count) :
    residue q (poly (power q r count exponent)) = residue q (poly r) ^ exponent := by
  induction count generalizing exponent with
  | zero =>
    obtain rfl : exponent = 0 := by simpa using h
    rw [power, poly_one hw, map_one, pow_zero]
  | succ count ih =>
    have hhalf := ih (show exponent / 2 < 2 ^ count by rw [pow_succ] at h; omega)
    have hsquare := residue_mul q (power q r count (exponent / 2))
      (power q r count (exponent / 2))
    rw [hhalf, ← pow_add] at hsquare
    rw [power]
    by_cases hodd : exponent % 2 = 1
    · have hsplit : exponent = exponent / 2 + exponent / 2 + 1 := by omega
      rw [if_pos hodd, residue_mul, hsquare, ← pow_succ', ← hsplit]
    · have hsplit : exponent = exponent / 2 + exponent / 2 := by omega
      rw [if_neg hodd, hsquare, ← hsplit]

/-! ### The order of `X` -/

/-- Whether a power of `X` is `1`, computed. -/
theorem pow_X_eq_one_iff (hw : 0 < w) (q : BitVec w) {count exponent : Nat}
    (h : exponent < 2 ^ count) :
    residue q X ^ exponent = 1 ↔ power q (step q one) count exponent = one := by
  have hone : residue q (poly (one : BitVec w)) = 1 := by rw [poly_one hw, map_one]
  have hX : residue q (poly (step q one)) = residue q X := by rw [residue_step, hone, mul_one]
  rw [← hX, ← residue_power hw q _ h, ← hone]
  exact ⟨residue_poly_inj, congrArg fun r => residue q (poly r)⟩

/-- **A certificate of the order.** The primes are all the factors of the order, with
    their multiplicities. -/
theorem orderOf_X_eq (hw : 0 < w) (q : BitVec w) {n count : Nat} (primes : List Nat)
    (hprime : ∀ p ∈ primes, p.Prime) (hproduct : primes.prod = n) (hn : n < 2 ^ count)
    (hone : power q (step q one) count n = one)
    (hother : ∀ p ∈ primes, power q (step q one) count (n / p) ≠ one) :
    orderOf (residue q X) = n := by
  have hpos : 0 < n := by
    rw [← hproduct]
    exact List.prod_pos fun p hp => (hprime p hp).pos
  refine orderOf_eq_of_pow_and_pow_div_prime hpos ((pow_X_eq_one_iff hw q hn).mpr hone) ?_
  intro p hp hdvd hpow
  rw [← hproduct] at hdvd
  obtain ⟨p', hmem, hdvd'⟩ := (hp.prime.dvd_prod_iff).mp hdvd
  obtain rfl := (Nat.prime_dvd_prime_iff_eq hp (hprime p' hmem)).mp hdvd'
  have hlt : n / p < 2 ^ count := Nat.lt_of_le_of_lt (Nat.div_le_self n p) hn
  exact hother p hmem ((pow_X_eq_one_iff hw q hlt).mp hpow)

/-- Modulo a polynomial with a constant term `X` is a unit. -/
theorem isUnit_residue_X {q : BitVec w} (hconstant : (modulus q).coeff 0 = 1) :
    IsUnit (residue q X) := by
  obtain ⟨a, b, hsum⟩ := isCoprime_X hconstant
  refine IsUnit.of_mul_eq_one (residue q b) ?_
  have hresidue := congrArg (residue q) hsum
  rwa [map_add, map_mul, AdjoinRoot.mk_self, mul_zero, zero_add, map_mul, map_one,
    mul_comm] at hresidue

theorem degree_message_lt (cs : List (BitVec k)) : (message cs).degree < (k * cs.length : Nat) := by
  rw [degree_lt_iff_coeff_zero]
  exact fun m hm => coeff_message_of_ge cs hm

/-- A message is determined by its length and its polynomial. -/
theorem message_inj {cs ds : List (BitVec k)} (hlength : cs.length = ds.length)
    (h : message cs = message ds) : cs = ds := by
  apply eq_of_bit_eq hlength
  intro n hn
  apply (coeff_difference hlength hn).mp
  rw [h, sub_self, coeff_zero]

/-- Polynomials shorter than the modulus are their residue classes. -/
theorem eq_of_residue_eq {q : BitVec w} {p p' : (ZMod 2)[X]} (h : residue q p = residue q p')
    (hp : p.degree < w) (hp' : p'.degree < w) : p = p' := by
  rw [← (modByMonic_eq_self_iff (monic_modulus q)).mpr (hp.trans_eq (degree_modulus q).symm),
    ← (modByMonic_eq_self_iff (monic_modulus q)).mpr (hp'.trans_eq (degree_modulus q).symm)]
  exact modByMonic_eq_of_dvd_sub (monic_modulus q) (AdjoinRoot.mk_eq_mk.mp h)

/-- Messages as long as the register: how they and the registers they start from make up
    for each other. -/
theorem foldl_absorb_eq_iff_of_length (h : k ≤ w) {q : BitVec w}
    (hconstant : (modulus q).coeff 0 = 1) {cs ds : List (BitVec k)} (hcs : k * cs.length = w)
    (hds : k * ds.length = w) (r s : BitVec w) :
    cs.foldl (absorb q) r = ds.foldl (absorb q) s ↔ message cs + poly r = message ds + poly s := by
  have hcs' := residue_foldl_absorb h q cs r
  have hds' := residue_foldl_absorb h q ds s
  rw [hcs, ← add_mul, map_mul, map_pow] at hcs'
  rw [hds, ← add_mul, map_mul, map_pow] at hds'
  have hunit := (isUnit_residue_X hconstant).pow w
  constructor
  · intro heq
    rw [heq, hds'] at hcs'
    refine eq_of_residue_eq (hunit.mul_right_cancel hcs').symm ?_ ?_
    · have hdegree := degree_message_lt cs
      rw [hcs] at hdegree
      exact (degree_add_le _ _).trans_lt (max_lt hdegree (degree_poly_lt r))
    · have hdegree := degree_message_lt ds
      rw [hds] at hdegree
      exact (degree_add_le _ _).trans_lt (max_lt hdegree (degree_poly_lt s))
  · intro heq
    apply residue_poly_inj (q := q)
    rw [hcs', hds', heq]

/-! ### Two bits -/

theorem bit_of_ge (cs : List (BitVec k)) {n : Nat} (h : k * cs.length ≤ n) : bit cs n = false := by
  rcases Nat.eq_zero_or_pos k with rfl | hk
  · exact BitVec.getLsbD_of_ge _ _ (Nat.zero_le _)
  · have hbehind : cs.length ≤ n / k := (Nat.le_div_iff_mul_le hk).mpr (by rwa [Nat.mul_comm])
    rw [bit, List.getD_eq_getElem?_getD, List.getElem?_eq_none hbehind]
    exact BitVec.getLsbD_zero

section Difference

variable {cs ds : List (BitVec k)} {i j : Nat} (hlength : cs.length = ds.length)

include hlength

/-- Messages leave the same register when the modulus divides their difference. -/
theorem foldl_absorb_eq_iff (h : k ≤ w) (q r : BitVec w) :
    cs.foldl (absorb q) r = ds.foldl (absorb q) r ↔
      residue q ((message cs - message ds) * X ^ w) = 0 := by
  have hcs := residue_foldl_absorb h q cs r
  have hds := residue_foldl_absorb h q ds r
  rw [← hlength] at hds
  have hdifference : residue q ((message cs - message ds) * X ^ w) =
      residue q (poly (cs.foldl (absorb q) r)) - residue q (poly (ds.foldl (absorb q) r)) := by
    rw [hcs, hds, ← map_sub]
    refine congrArg _ ?_
    ring
  rw [hdifference, sub_eq_zero]
  exact ⟨congrArg fun register => residue q (poly register), residue_poly_inj⟩

theorem difference_of_two_bits (hij : i < j) (hi : bit cs i ≠ bit ds i) (hj : bit cs j ≠ bit ds j)
    (hrest : ∀ n, n ≠ i → n ≠ j → bit cs n = bit ds n) :
    message cs - message ds = X ^ (k * cs.length - 1 - j) * (X ^ (j - i) + 1) := by
  have hinside : j < k * cs.length := by
    by_contra hge
    exact hj ((bit_of_ge cs (Nat.not_lt.mp hge)).trans
      (bit_of_ge ds (hlength ▸ Nat.not_lt.mp hge)).symm)
  have hexponent : k * cs.length - 1 - j + (j - i) = k * cs.length - 1 - i := by omega
  rw [mul_add, mul_one, ← pow_add, hexponent]
  ext m
  rw [coeff_add, coeff_X_pow, coeff_X_pow]
  rcases Nat.lt_or_ge m (k * cs.length) with hlt | hge
  · obtain ⟨n, hn, rfl⟩ : ∃ n, n < k * cs.length ∧ m = k * cs.length - 1 - n :=
      ⟨k * cs.length - 1 - m, by omega, by omega⟩
    have hcoeff := coeff_difference hlength hn
    have hbinary : ∀ c : ZMod 2, c ≠ 0 → c = 1 := by decide
    by_cases hni : n = i
    · subst hni
      rw [if_pos rfl, if_neg (by omega), add_zero]
      exact hbinary _ (mt hcoeff.mp hi)
    · by_cases hnj : n = j
      · subst hnj
        rw [if_neg (by omega), if_pos rfl, zero_add]
        exact hbinary _ (mt hcoeff.mp hj)
      · rw [if_neg (by omega), if_neg (by omega), add_zero]
        exact hcoeff.mpr (hrest n hni hnj)
  · rw [coeff_difference_of_ge hlength hge, if_neg (by omega), if_neg (by omega), add_zero]

/-- **Errors in two bits** escape a register exactly when its period divides their
    distance. -/
theorem foldl_absorb_eq_iff_of_two_bits (h : k ≤ w) {q : BitVec w}
    (hconstant : (modulus q).coeff 0 = 1) (hij : i < j) (hi : bit cs i ≠ bit ds i)
    (hj : bit cs j ≠ bit ds j) (hrest : ∀ n, n ≠ i → n ≠ j → bit cs n = bit ds n)
    (r : BitVec w) :
    cs.foldl (absorb q) r = ds.foldl (absorb q) r ↔ orderOf (residue q X) ∣ j - i := by
  have hunit := isUnit_residue_X hconstant
  have hfactor : residue q ((message cs - message ds) * X ^ w) =
      residue q X ^ (k * cs.length - 1 - j + w) * (residue q X ^ (j - i) - -1) := by
    rw [difference_of_two_bits hlength hij hi hj hrest]
    simp only [map_mul, map_add, map_pow, map_one, sub_neg_eq_add]
    ring
  have htwo : (-1 : AdjoinRoot (modulus q)) = 1 := by
    have hpoly : (-1 : (ZMod 2)[X]) = 1 := CharTwo.neg_eq 1
    have hresidue := congrArg (residue q) hpoly
    rwa [map_neg, map_one] at hresidue
  rw [foldl_absorb_eq_iff hlength h, hfactor, (hunit.pow _).mul_right_eq_zero, htwo, sub_eq_zero,
    orderOf_dvd_iff_pow_eq_one]

end Difference

end ShiftRegister
