import ImgTools.Binary
import ImgTools.Crc32
import ImgTools.RegisterPeriod
import Mathlib.Tactic.NormNum.Prime

/-!
# Laws of the checksum

How the checksum of a concatenation follows from those of its parts, what it comes
to when a message is followed by its own checksum, and which errors in two bits
escape it.
-/

namespace ImgTools

open Polynomial ShiftRegister

/-! ### Concatenation -/

/-- The loop is linear in the register. -/
theorem foldl_crcByte_xor (data : List UInt8) (register other : UInt32) :
    data.foldl crcByte (register ^^^ other) =
      data.foldl crcByte register ^^^ crcBit^[8 * data.length] other := by
  induction data generalizing register other with
  | nil => rfl
  | cons byte data ih =>
    have hbyte :
        crcByte (register ^^^ other) byte = crcByte register byte ^^^ crcBit^[8] other := by
      have hswap : (register ^^^ other) ^^^ byte.toUInt32 =
          (register ^^^ byte.toUInt32) ^^^ other := by
        rw [UInt32.xor_assoc, UInt32.xor_comm other, ← UInt32.xor_assoc]
      apply UInt32.toBitVec_inj.mp
      rw [crcByte, hswap, crcByte, UInt32.toBitVec_xor, iterate_toBitVec crcBit_toBitVec,
        iterate_toBitVec crcBit_toBitVec, iterate_toBitVec crcBit_toBitVec, UInt32.toBitVec_xor,
        steps_xor]
    have hcount : 8 * (byte :: data).length = 8 * data.length + 8 := by
      rw [List.length_cons]
      omega
    rw [List.foldl_cons, hbyte, ih, List.foldl_cons, hcount, Function.iterate_add_apply]

theorem not_eq_xor (register : UInt32) : ~~~register = 0xffffffff ^^^ register := by
  have hones : (0xffffffff : UInt32) = ~~~0 := by decide
  rw [hones, UInt32.not_xor, UInt32.zero_xor]

/-- **The checksum of a concatenation.** The checksum of the first part goes through
    the inner turn of the loop once for every bit of the second. -/
theorem imageforgeCrc32_append (a b : List UInt8) :
    imageforgeCrc32 (a ++ b) =
      crcBit^[8 * b.length] (imageforgeCrc32 a) ^^^ imageforgeCrc32 b := by
  have hregister : a.foldl crcByte 0xffffffff = 0xffffffff ^^^ imageforgeCrc32 a := by
    rw [imageforgeCrc32, ← not_eq_xor, UInt32.not_not]
  have hchecksum : imageforgeCrc32 b = ~~~(b.foldl crcByte 0xffffffff) := rfl
  rw [hchecksum, UInt32.xor_comm, UInt32.not_xor, ← foldl_crcByte_xor, ← hregister,
    ← List.foldl_append, imageforgeCrc32]

/-! ### The residue -/

theorem messageBit_le32 (x : UInt32) {n : Nat} (hn : n < 32) :
    messageBit (le32 x) n = x.toBitVec.getLsbD n := by
  have hsplit : n % 8 + 8 * (n / 8) = n := Nat.mod_add_div n 8
  have hbyte : (le32 x).getD (n / 8) 0 = UInt8.ofNat (x.toNat / 256 ^ (n / 8)) :=
    LittleEndian.getD_encode x.toNat (by omega)
  have hpower : 256 ^ (n / 8) = 2 ^ (8 * (n / 8)) := (pow_mul 2 8 (n / 8)).symm
  have hlow : n % 8 < 8 := Nat.mod_lt n (by decide)
  rw [messageBit, hbyte, hpower, UInt8.toBitVec_ofNat', BitVec.getLsbD_ofNat, decide_eq_true hlow,
    Bool.true_and, Nat.testBit_div_two_pow, hsplit]
  rfl

theorem message_le32 (x : UInt32) : message ((le32 x).map UInt8.toBitVec) = poly x.toBitVec := by
  have hlength : ((le32 x).map UInt8.toBitVec).length = 4 := by rw [List.length_map, length_le32]
  ext m
  rcases Nat.lt_or_ge m 32 with hlt | hge
  · obtain ⟨n, hn, rfl⟩ : ∃ n, n < 32 ∧ m = 32 - 1 - n := ⟨31 - m, by omega, by omega⟩
    have hcoeff := coeff_message ((le32 x).map UInt8.toBitVec) (n := n) (by omega)
    rw [hlength] at hcoeff
    rw [hcoeff, coeff_poly _ hn, bit_map_toBitVec, messageBit_le32 x hn]
  · rw [coeff_message_of_ge _ (by omega), coeff_eq_zero_of_degree_lt]
    exact lt_of_lt_of_le (degree_poly_lt _) (by exact_mod_cast hge)

theorem map_toBitVec_inj {a b : List UInt8} (h : a.map UInt8.toBitVec = b.map UInt8.toBitVec) :
    a = b :=
  List.map_injective_iff.mpr (fun _ _ => UInt8.toBitVec_inj.mp) h

/-- **The residue of the checksum.** Four bytes behind a message bring the checksum to
    one value, whatever the message is, exactly when they are its checksum. -/
theorem imageforgeCrc32_append_eq_iff (data trailer : List UInt8) (h : trailer.length = 4) :
    imageforgeCrc32 (data ++ trailer) = 0x2144df1c ↔ trailer = le32 (imageforgeCrc32 data) := by
  obtain ⟨register, hregister⟩ : ∃ register, data.foldl crcByte 0xffffffff = register := ⟨_, rfl⟩
  have hchecksum : imageforgeCrc32 data = ~~~register := by rw [imageforgeCrc32, hregister]
  have hwhole : imageforgeCrc32 (data ++ trailer) = ~~~(trailer.foldl crcByte register) := by
    rw [imageforgeCrc32, List.foldl_append, hregister]
  -- the residue is what a register of ones comes to behind four bytes of zeros
  have hzeros : (0x2144df1c : UInt32) = ~~~((le32 0).foldl crcByte 0xffffffff) := by decide +kernel
  have hones : poly (0xffffffff : UInt32).toBitVec =
      poly (~~~register).toBitVec + poly register.toBitVec := by
    rw [← poly_xor, ← UInt32.toBitVec_xor, UInt32.not_xor, UInt32.xor_self]
    rfl
  rw [hwhole, hzeros, UInt32.not_inj, ← UInt32.toBitVec_inj, foldl_crcByte_toBitVec,
    foldl_crcByte_toBitVec, foldl_absorb_eq_iff_of_length (show 8 ≤ 32 by decide)
      crcPolynomial_coeff_zero (by rw [List.length_map, h])
      (by rw [List.length_map, length_le32]), message_le32, hones, ← message_le32 (~~~register),
    hchecksum]
  have hzero : poly (0 : UInt32).toBitVec = 0 := by simp [poly]
  rw [hzero, zero_add, add_left_inj]
  constructor
  · intro heq
    apply map_toBitVec_inj
    exact message_inj (by rw [List.length_map, List.length_map, h, length_le32]) heq
  · rintro rfl
    rfl

/-- The four bytes of the checksum of a message of one byte. -/
theorem imageforgeCrc32_append_eq_iff_byte :
    imageforgeCrc32 ([0x31] ++ [0xb7, 0xef, 0xdc, 0x83]) = 0x2144df1c ↔
      [0xb7, 0xef, 0xdc, 0x83] = le32 (imageforgeCrc32 [0x31]) :=
  imageforgeCrc32_append_eq_iff [0x31] [0xb7, 0xef, 0xdc, 0x83] rfl

/-! ### Two bits -/

/-- The register of the loop takes the longest way round. -/
theorem orderOf_feedback : orderOf (residue feedback X) = 2 ^ 32 - 1 := by
  have hprime : ∀ p ∈ [3, 5, 17, 257, 65537], Nat.Prime p := by
    intro p hp
    simp only [List.mem_cons, List.not_mem_nil, or_false] at hp
    rcases hp with rfl | rfl | rfl | rfl | rfl <;> norm_num
  have hone : power feedback (step feedback one) 32 (2 ^ 32 - 1) = one := by decide +kernel
  exact orderOf_X_eq (by decide) feedback [3, 5, 17, 257, 65537] hprime (by norm_num)
    (by norm_num) hone (by decide +kernel)

/-- **Errors in two bits** escape the checksum exactly when their distance is a
    multiple of `2 ^ 32 - 1`: in no message of less than half a gigabyte. -/
theorem imageforgeCrc32_eq_iff_of_two_bits (a b : List UInt8) (i j : Nat)
    (hlength : a.length = b.length) (hij : i < j) (hi : messageBit a i ≠ messageBit b i)
    (hj : messageBit a j ≠ messageBit b j)
    (hrest : ∀ n, n ≠ i → n ≠ j → messageBit a n = messageBit b n) :
    imageforgeCrc32 a = imageforgeCrc32 b ↔ 2 ^ 32 - 1 ∣ j - i := by
  have hlengths : (a.map UInt8.toBitVec).length = (b.map UInt8.toBitVec).length := by
    rw [List.length_map, List.length_map, hlength]
  rw [← bit_map_toBitVec, ← bit_map_toBitVec] at hi hj
  have hothers : ∀ n, n ≠ i → n ≠ j →
      bit (a.map UInt8.toBitVec) n = bit (b.map UInt8.toBitVec) n := by
    intro n hni hnj
    rw [bit_map_toBitVec, bit_map_toBitVec, hrest n hni hnj]
  have htwo := foldl_absorb_eq_iff_of_two_bits hlengths (show 8 ≤ 32 by decide)
    crcPolynomial_coeff_zero hij hi hj hothers (0xffffffff : UInt32).toBitVec
  rw [← foldl_crcByte_toBitVec, ← foldl_crcByte_toBitVec, UInt32.toBitVec_inj,
    orderOf_feedback] at htwo
  rw [← htwo, imageforgeCrc32, imageforgeCrc32, UInt32.not_inj]

/-- The first bit of a message of five bytes and the last one. -/
theorem imageforgeCrc32_eq_iff_of_two_bits_ends :
    imageforgeCrc32 [0x31, 0, 0, 0, 0] = imageforgeCrc32 [0x30, 0, 0, 0, 0x80] ↔
      2 ^ 32 - 1 ∣ 39 - 0 := by
  refine imageforgeCrc32_eq_iff_of_two_bits _ _ 0 39 rfl (by decide) (by decide) (by decide) ?_
  intro n hzero hlast
  rcases Nat.lt_or_ge n 40 with hlt | hge
  · have hinside : ∀ n < 40, n ≠ 0 → n ≠ 39 → messageBit [0x31, 0, 0, 0, 0] n =
        messageBit [0x30, 0, 0, 0, 0x80] n := by decide
    exact hinside n hlt hzero hlast
  · exact (messageBit_of_ge hge).trans (messageBit_of_ge hge).symm

end ImgTools
