import Mathlib.RingTheory.Coprime.Lemmas
import ImgTools.ShiftRegister

/-!
# Burst errors

Two messages of one length that differ within as many consecutive bits as the
register has leave different registers, when the polynomial of the feedback has a
constant term. Their difference is a power of `X` times a polynomial that is too
small for the modulus to divide it, and the modulus has no factor `X`.
-/

namespace ShiftRegister

open Polynomial

variable {w k : Nat}

/-- Bit `n` of a message, the low bit of every chunk first. -/
def bit (cs : List (BitVec k)) (n : Nat) : Bool := (cs.getD (n / k) 0).getLsbD (n % k)

theorem bit_cons_of_lt {c : BitVec k} {cs : List (BitVec k)} {n : Nat} (h : n < k) :
    bit (c :: cs) n = c.getLsbD n := by
  rw [bit, Nat.div_eq_of_lt h, Nat.mod_eq_of_lt h, List.getD_cons_zero]

theorem bit_cons_add (c : BitVec k) (cs : List (BitVec k)) {n : Nat} (hk : 0 < k) :
    bit (c :: cs) (k + n) = bit cs n := by
  rw [bit, Nat.add_div_left n hk, Nat.add_mod_left, List.getD_cons_succ, bit]

theorem coeff_message_of_ge (cs : List (BitVec k)) {m : Nat} (hm : k * cs.length ≤ m) :
    (message cs).coeff m = 0 := by
  induction cs with
  | nil => exact coeff_zero m
  | cons c cs ih =>
    rw [List.length_cons, Nat.mul_add, Nat.mul_one] at hm
    have hhead : (poly c).coeff (m - k * cs.length) = 0 :=
      coeff_eq_zero_of_degree_lt (lt_of_lt_of_le (degree_poly_lt c) (by exact_mod_cast by omega))
    rw [message, coeff_add, coeff_mul_X_pow', if_pos (by omega), hhead, ih (by omega), add_zero]

/-- The message has a coefficient for each bit, the first bit for the highest power. -/
theorem coeff_message (cs : List (BitVec k)) {n : Nat} (hn : n < k * cs.length) :
    (message cs).coeff (k * cs.length - 1 - n) = if bit cs n then 1 else 0 := by
  induction cs generalizing n with
  | nil => exact absurd hn (Nat.not_lt_zero n)
  | cons c cs ih =>
    rw [List.length_cons, Nat.mul_add, Nat.mul_one] at hn ⊢
    rw [message, coeff_add, coeff_mul_X_pow']
    rcases Nat.lt_or_ge n k with hhead | htail
    · have hexponent : k * cs.length + k - 1 - n - k * cs.length = k - 1 - n := by omega
      rw [if_pos (by omega), hexponent, coeff_poly c hhead, coeff_message_of_ge cs (by omega),
        add_zero, bit_cons_of_lt hhead]
    · obtain ⟨i, rfl⟩ := Nat.exists_eq_add_of_le htail
      have hexponent : k * cs.length + k - 1 - (k + i) = k * cs.length - 1 - i := by omega
      have hinside : i < k * cs.length := by omega
      have hk : 0 < k := Nat.pos_of_mul_pos_right (Nat.lt_of_le_of_lt (Nat.zero_le i) hinside)
      rw [if_neg (by omega), zero_add, hexponent, ih hinside, bit_cons_add c cs hk]

theorem eq_of_bit_eq {cs ds : List (BitVec k)} (hlength : cs.length = ds.length)
    (h : ∀ n < k * cs.length, bit cs n = bit ds n) : cs = ds := by
  induction cs generalizing ds with
  | nil => exact (List.length_eq_zero_iff.mp hlength.symm).symm
  | cons c cs ih =>
    cases ds with
    | nil => cases hlength
    | cons d ds =>
      rw [List.length_cons, Nat.mul_add, Nat.mul_one] at h
      have hhead : c = d := by
        refine BitVec.eq_of_getLsbD_eq fun j hj => ?_
        have hbit := h j (by omega)
        rwa [bit_cons_of_lt hj, bit_cons_of_lt hj] at hbit
      have htail : cs = ds := by
        apply ih (Nat.succ.inj hlength)
        intro n hn
        have hk : 0 < k := Nat.pos_of_mul_pos_right (Nat.lt_of_le_of_lt (Nat.zero_le n) hn)
        have hbit := h (k + n) (by omega)
        rwa [bit_cons_add c cs hk, bit_cons_add d ds hk] at hbit
      rw [hhead, htail]

theorem isCoprime_X {p : (ZMod 2)[X]} (h : p.coeff 0 = 1) : IsCoprime p X := by
  refine ⟨1, -p.divX, ?_⟩
  have hsplit := divX_mul_X_add p
  rw [h, map_one] at hsplit
  calc 1 * p + -p.divX * X = (p.divX * X + 1) - p.divX * X := by rw [hsplit]; ring
    _ = 1 := by ring

/-! ### The difference of two messages -/

section Difference

variable {cs ds : List (BitVec k)} (hlength : cs.length = ds.length)

include hlength

theorem coeff_difference {n : Nat} (hn : n < k * cs.length) :
    (message cs - message ds).coeff (k * cs.length - 1 - n) = 0 ↔ bit cs n = bit ds n := by
  rw [coeff_sub, coeff_message cs hn, hlength, coeff_message ds (hlength ▸ hn)]
  cases bit cs n <;> cases bit ds n <;> simp

theorem coeff_difference_of_ge {m : Nat} (hm : k * cs.length ≤ m) :
    (message cs - message ds).coeff m = 0 := by
  rw [coeff_sub, coeff_message_of_ge cs hm, coeff_message_of_ge ds (hlength ▸ hm), sub_zero]

/-- The difference of a burst is a short polynomial, moved up. -/
theorem exists_short_factor {start : Nat}
    (hburst : ∀ n, bit cs n ≠ bit ds n → start ≤ n ∧ n < start + w) :
    ∃ (e : Nat) (short : (ZMod 2)[X]), message cs - message ds = X ^ e * short ∧
      short.degree < w := by
  obtain ⟨e, he⟩ : ∃ e, e = k * cs.length - (start + w) := ⟨_, rfl⟩
  -- a coefficient in front of the burst or behind it vanishes
  have hvanish : ∀ m, m < e ∨ e + w ≤ m → (message cs - message ds).coeff m = 0 := by
    intro m hm
    rcases Nat.lt_or_ge m (k * cs.length) with hlt | hge
    · obtain ⟨n, hn, rfl⟩ : ∃ n, n < k * cs.length ∧ m = k * cs.length - 1 - n :=
        ⟨k * cs.length - 1 - m, by omega, by omega⟩
      apply (coeff_difference hlength hn).mpr
      by_contra hdiffer
      obtain ⟨hfrom, hto⟩ := hburst n hdiffer
      omega
    · exact coeff_difference_of_ge hlength hge
  have hdvd : X ^ e ∣ message cs - message ds :=
    X_pow_dvd_iff.mpr fun m hm => hvanish m (Or.inl hm)
  obtain ⟨short, hshort⟩ := hdvd
  refine ⟨e, short, hshort, ?_⟩
  rw [degree_lt_iff_coeff_zero]
  intro m hm
  rw [← coeff_X_pow_mul short e m, ← hshort]
  exact hvanish (m + e) (Or.inr (by omega))

end Difference

/-- **A register detects every burst** that is no longer than itself. -/
theorem foldl_absorb_ne_of_burst (h : k ≤ w) {q : BitVec w} (hconstant : (modulus q).coeff 0 = 1)
    {cs ds : List (BitVec k)} (hlength : cs.length = ds.length) (hne : cs ≠ ds) {start : Nat}
    (hburst : ∀ n, bit cs n ≠ bit ds n → start ≤ n ∧ n < start + w) (r : BitVec w) :
    cs.foldl (absorb q) r ≠ ds.foldl (absorb q) r := by
  intro hsame
  obtain ⟨e, short, hdifference, hdegree⟩ := exists_short_factor hlength hburst
  have hresidue := residue_foldl_absorb h q cs r
  rw [hsame, residue_foldl_absorb h q ds r, hlength] at hresidue
  have hdvd : modulus q ∣ X ^ (e + w) * short := by
    have hsub := AdjoinRoot.mk_eq_mk.mp hresidue.symm
    have hfactor : message cs * X ^ w + poly r * X ^ (k * ds.length) -
        (message ds * X ^ w + poly r * X ^ (k * ds.length)) = X ^ (e + w) * short := by
      calc message cs * X ^ w + poly r * X ^ (k * ds.length) -
            (message ds * X ^ w + poly r * X ^ (k * ds.length))
          = (message cs - message ds) * X ^ w := by ring
        _ = X ^ (e + w) * short := by rw [hdifference]; ring
    rwa [hfactor] at hsub
  -- the modulus has no factor `X`, and is longer than the burst
  have hshort : short = 0 := by
    have hcoprime : IsCoprime (modulus q) (X ^ (e + w)) := (isCoprime_X hconstant).pow_right
    apply eq_zero_of_dvd_of_degree_lt (hcoprime.dvd_of_dvd_mul_left hdvd)
    rw [degree_modulus]
    exact hdegree
  apply hne
  apply eq_of_bit_eq hlength
  intro n hn
  apply (coeff_difference hlength hn).mp
  rw [hdifference, hshort, mul_zero, coeff_zero]

end ShiftRegister
