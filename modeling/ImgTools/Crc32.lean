import ImgTools.Bursts

/-!
# The checksum

`imageforge_crc32` of `imageforge_core.rs` and the entry `crc32` of `lib.rs`.
The register of the loop is a reflected shift register of 32 bits that absorbs
the message in chunks of a byte.
-/

namespace ImgTools

open Polynomial ShiftRegister

def crcBit (crc : UInt32) : UInt32 :=
  let mask := -(crc &&& 1)
  (crc >>> 1) ^^^ (0xedb88320 &&& mask)

def crcByte (crc : UInt32) (byte : UInt8) : UInt32 := crcBit^[8] (crc ^^^ byte.toUInt32)

def imageforgeCrc32 (data : List UInt8) : UInt32 := ~~~(data.foldl crcByte 0xffffffff)

/-- The bytes of the array are given if they could be taken over. -/
def crc32 : Option (List UInt8) → Int64
  | none => -1
  | some bytes => if bytes.isEmpty then 0 else Int64.ofNat (imageforgeCrc32 bytes).toNat

/-! ### The table -/

def tableStep (crc : UInt32) : UInt32 :=
  if crc &&& 1 = 1 then (crc >>> 1) ^^^ 0xedb88320 else crc >>> 1

def crcTable : List UInt32 := (List.range 256).map fun i => tableStep^[8] (UInt32.ofNat i)

def tableByte (crc : UInt32) (byte : UInt8) : UInt32 :=
  crcTable.getD ((crc ^^^ byte.toUInt32) &&& 0xff).toNat 0 ^^^ (crc >>> 8)

/-! ### The polynomial -/

noncomputable def crcPolynomial : (ZMod 2)[X] :=
  X ^ 32 + X ^ 26 + X ^ 23 + X ^ 22 + X ^ 16 + X ^ 12 + X ^ 11 + X ^ 10 + X ^ 8 + X ^ 7 + X ^ 5 +
    X ^ 4 + X ^ 2 + X + 1

/-- The bits of the message, the low bit of every byte first, are its coefficients. -/
noncomputable def messagePolynomial (data : List UInt8) : (ZMod 2)[X] :=
  message (data.map UInt8.toBitVec)

def feedback : BitVec 32 := 0xedb88320#32

theorem modulus_feedback : modulus feedback = crcPolynomial := by
  unfold modulus poly crcPolynomial feedback
  simp [Finset.sum_range_succ]
  ring

/-! ### The loop is a shift register -/

theorem lowBit_toBitVec (crc : UInt32) :
    (crc &&& 1).toBitVec = (BitVec.ofBool (crc.toBitVec.getLsbD 0)).setWidth 32 := by
  rw [UInt32.toBitVec_and]
  exact BitVec.and_one_eq_setWidth_ofBool_getLsbD

theorem mask_eq (crc : UInt32) :
    (-(crc &&& 1)).toBitVec = if crc.toBitVec.getLsbD 0 then BitVec.allOnes 32 else 0#32 := by
  rw [UInt32.toBitVec_neg, lowBit_toBitVec]
  cases crc.toBitVec.getLsbD 0 <;> rfl

theorem crcBit_toBitVec (crc : UInt32) : (crcBit crc).toBitVec = step feedback crc.toBitVec := by
  have hmask := mask_eq crc
  simp only [crcBit, UInt32.toBitVec_xor, UInt32.toBitVec_and, hmask, step]
  cases crc.toBitVec.getLsbD 0 <;> simp [feedback]

theorem tableStep_toBitVec (crc : UInt32) :
    (tableStep crc).toBitVec = step feedback crc.toBitVec := by
  have hlow : (crc &&& 1 = 1) ↔ crc.toBitVec.getLsbD 0 = true := by
    rw [← UInt32.toBitVec_inj, lowBit_toBitVec]
    cases crc.toBitVec.getLsbD 0 <;> decide
  unfold tableStep step
  cases hbit : crc.toBitVec.getLsbD 0 with
  | false => rw [if_neg (by rw [hlow, hbit]; decide)]; rfl
  | true => rw [if_pos (hlow.mpr hbit)]; rfl

theorem iterate_toBitVec {f : UInt32 → UInt32}
    (hf : ∀ crc, (f crc).toBitVec = step feedback crc.toBitVec) (n : Nat) (crc : UInt32) :
    (f^[n] crc).toBitVec = (step feedback)^[n] crc.toBitVec := by
  induction n with
  | zero => rfl
  | succ n ih => rw [Function.iterate_succ_apply', Function.iterate_succ_apply', hf, ih]

theorem crcByte_toBitVec (crc : UInt32) (byte : UInt8) :
    (crcByte crc byte).toBitVec = absorb feedback crc.toBitVec byte.toBitVec := by
  rw [crcByte, iterate_toBitVec crcBit_toBitVec]
  rfl

theorem foldl_crcByte_toBitVec (data : List UInt8) (register : UInt32) :
    (data.foldl crcByte register).toBitVec =
      (data.map UInt8.toBitVec).foldl (absorb feedback) register.toBitVec := by
  induction data generalizing register with
  | nil => rfl
  | cons byte data ih => rw [List.foldl_cons, ih, List.map_cons, List.foldl_cons, crcByte_toBitVec]

/-! ### The table is a table of chunks -/

theorem crcTable_getD {crc : UInt32} (h : crc.toNat < 256) :
    crcTable.getD crc.toNat 0 = tableStep^[8] crc := by
  rw [crcTable, List.getD_eq_getElem?_getD, List.getElem?_map, List.getElem?_range h]
  exact congrArg (tableStep^[8]) UInt32.ofNat_toNat

theorem low_toBitVec (crc : UInt32) (byte : UInt8) :
    ((crc ^^^ byte.toUInt32) &&& 0xff).toBitVec =
      (crc.toBitVec.setWidth 8 ^^^ byte.toBitVec).setWidth 32 := by
  have hmask : ∀ j < 32, (255#32).getLsbD j = decide (j < 8) := by decide
  refine BitVec.eq_of_getLsbD_eq fun j hj => ?_
  show ((crc.toBitVec ^^^ byte.toBitVec.setWidth 32) &&& 255#32).getLsbD j = _
  simp only [BitVec.getLsbD_and, BitVec.getLsbD_xor, BitVec.getLsbD_setWidth, hmask j hj, hj,
    decide_true, Bool.true_and]
  rcases Nat.lt_or_ge j 8 with hlow | hhigh
  · simp [hlow]
  · simp [Nat.not_lt.mpr hhigh, BitVec.getLsbD_of_ge byte.toBitVec j hhigh]

theorem tableByte_eq (crc : UInt32) (byte : UInt8) : tableByte crc byte = crcByte crc byte := by
  have hindex : ((crc ^^^ byte.toUInt32) &&& 0xff).toNat < 256 := by
    rw [UInt32.toNat_and]
    exact Nat.lt_succ_of_le Nat.and_le_right
  apply UInt32.toBitVec_inj.mp
  rw [crcByte_toBitVec, absorb_eq_lookup, tableByte, crcTable_getD hindex, UInt32.toBitVec_xor,
    iterate_toBitVec tableStep_toBitVec, low_toBitVec]
  rfl

/-! ### The checksum is a remainder -/

theorem poly_ones : poly (0xffffffff : UInt32).toBitVec = ∑ i ∈ Finset.range 32, X ^ i := by
  have hones : ∀ j < 32, (0xffffffff : UInt32).toBitVec.getLsbD j = true := by decide
  rw [← Finset.sum_range_reflect, poly]
  refine Finset.sum_congr rfl fun j hj => ?_
  rw [if_pos (hones j (Finset.mem_range.mp hj))]

/-- **The checksum is that of the polynomial.** -/
theorem imageforgeCrc32_eq_remainder (data : List UInt8) :
    (∀ j < 32, (imageforgeCrc32 data).toBitVec.getLsbD j = true ↔
      ((messagePolynomial data * X ^ 32 +
        (∑ i ∈ Finset.range 32, X ^ i) * X ^ (8 * data.length)) %ₘ crcPolynomial).coeff (31 - j) =
          0) ∧
      (∀ register, data.foldl crcByte register = data.foldl tableByte register) ∧
      crc32 (some data) = Int64.ofNat (imageforgeCrc32 data).toNat := by
  refine ⟨fun j hj => ?_, fun register => ?_, ?_⟩
  · have hremainder := poly_foldl_absorb (show 8 ≤ 32 by decide) feedback
      (data.map UInt8.toBitVec) (0xffffffff : UInt32).toBitVec
    rw [← foldl_crcByte_toBitVec, List.length_map, poly_ones, modulus_feedback] at hremainder
    rw [messagePolynomial, ← hremainder, coeff_poly _ hj, imageforgeCrc32, UInt32.toBitVec_not,
      BitVec.getLsbD_not, decide_eq_true hj, Bool.true_and]
    cases (data.foldl crcByte 0xffffffff).toBitVec.getLsbD j <;> simp
  · have hturn : crcByte = tableByte := by
      funext crc byte
      exact (tableByte_eq crc byte).symm
    rw [hturn]
  · cases data with
    | nil => rfl
    | cons byte data => rfl

/-- The check value of the checksum, that of the digits `123456789`. -/
example : imageforgeCrc32 [0x31, 0x32, 0x33, 0x34, 0x35, 0x36, 0x37, 0x38, 0x39] = 0xcbf43926 := by
  decide +kernel

/-! ### Bursts -/

def messageBit (data : List UInt8) (n : Nat) : Bool :=
  (data.getD (n / 8) 0).toBitVec.getLsbD (n % 8)

theorem bit_map_toBitVec (data : List UInt8) (n : Nat) :
    bit (data.map UInt8.toBitVec) n = messageBit data n := by
  rw [bit, messageBit, List.getD_eq_getElem?_getD, List.getD_eq_getElem?_getD, List.getElem?_map]
  cases data[n / 8]? <;> rfl

theorem messageBit_of_ge {data : List UInt8} {n : Nat} (h : 8 * data.length ≤ n) :
    messageBit data n = false := by
  have hbehind : data.length ≤ n / 8 := by omega
  rw [messageBit, List.getD_eq_getElem?_getD, List.getElem?_eq_none hbehind]
  exact BitVec.getLsbD_zero

theorem crcPolynomial_coeff_zero : (modulus feedback).coeff 0 = 1 := by
  rw [modulus_feedback, crcPolynomial]
  simp

/-- **The checksum detects every burst** of 32 bits or less. -/
theorem imageforgeCrc32_ne_of_burst (a b : List UInt8) (start : Nat) (hlength : a.length = b.length)
    (hne : a ≠ b)
    (hburst : ∀ n, messageBit a n ≠ messageBit b n → start ≤ n ∧ n < start + 32) :
    imageforgeCrc32 a ≠ imageforgeCrc32 b := by
  intro hsame
  have hregister : a.foldl crcByte 0xffffffff = b.foldl crcByte 0xffffffff :=
    UInt32.not_inj.mp hsame
  have hdiffer : a.map UInt8.toBitVec ≠ b.map UInt8.toBitVec := by
    intro hmap
    exact hne (List.map_injective_iff.mpr (fun _ _ => UInt8.toBitVec_inj.mp) hmap)
  have hbits : ∀ n, bit (a.map UInt8.toBitVec) n ≠ bit (b.map UInt8.toBitVec) n →
      start ≤ n ∧ n < start + 32 := by
    intro n hn
    rw [bit_map_toBitVec, bit_map_toBitVec] at hn
    exact hburst n hn
  apply foldl_absorb_ne_of_burst (show 8 ≤ 32 by decide) crcPolynomial_coeff_zero
    (by rw [List.length_map, List.length_map, hlength]) hdiffer hbits
    (0xffffffff : UInt32).toBitVec
  rw [← foldl_crcByte_toBitVec, ← foldl_crcByte_toBitVec, hregister]

/-- A burst of two bits, on both sides of a byte boundary. -/
theorem imageforgeCrc32_ne_of_burst_two : imageforgeCrc32 [0x31, 0x32] ≠
    imageforgeCrc32 [0xb1, 0x33] := by
  apply imageforgeCrc32_ne_of_burst [0x31, 0x32] [0xb1, 0x33] 7 rfl (by decide)
  intro n hn
  rcases Nat.lt_or_ge n 16 with hlt | hge
  · have hinside : ∀ n < 16, messageBit [0x31, 0x32] n ≠ messageBit [0xb1, 0x33] n →
        7 ≤ n ∧ n < 7 + 32 := by decide
    exact hinside n hlt hn
  · exact absurd ((messageBit_of_ge hge).trans (messageBit_of_ge hge).symm) hn

end ImgTools
