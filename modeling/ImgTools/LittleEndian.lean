import Mathlib.Data.List.Basic
import Mathlib.Tactic.Ring

/-!
# Little-endian fields of a byte string

Encoding of a number as a fixed count of bytes, the value of a byte string, and
`read?`, which reads a field at an offset when the byte string reaches that far.
The lemmas at the end read a field out of a concatenation, so that a record laid
out as a sum of fields can be read back one field at a time.
-/

namespace LittleEndian

/-- The `width` low bytes of `n`, least significant first. -/
def encode : Nat → Nat → List UInt8
  | 0, _ => []
  | width + 1, n => UInt8.ofNat n :: encode width (n / 256)

def value : List UInt8 → Nat
  | [] => 0
  | b :: bs => b.toNat + 256 * value bs

def read? (bytes : List UInt8) (offset width : Nat) : Option Nat :=
  if offset + width ≤ bytes.length then some (value ((bytes.drop offset).take width)) else none

@[simp] theorem length_encode (width n : Nat) : (encode width n).length = width := by
  induction width generalizing n with
  | zero => rfl
  | succ width ih => simp [encode, ih]

theorem getD_encode {width i : Nat} (n : Nat) (h : i < width) :
    (encode width n).getD i 0 = UInt8.ofNat (n / 256 ^ i) := by
  induction width generalizing n i with
  | zero => exact absurd h (Nat.not_lt_zero i)
  | succ width ih =>
    cases i with
    | zero => simp [encode]
    | succ i =>
      have hpower : n / 256 ^ (i + 1) = n / 256 / 256 ^ i := by
        rw [pow_succ', Nat.div_div_eq_div_mul]
      rw [encode, List.getD_cons_succ, ih _ (Nat.lt_of_succ_lt_succ h), hpower]

theorem value_encode (width n : Nat) : value (encode width n) = n % 256 ^ width := by
  induction width generalizing n with
  | zero => simp [encode, value, Nat.mod_one]
  | succ width ih =>
    have hbyte : n % 256 ^ 1 = (UInt8.ofNat n).toNat := by simp
    rw [encode, value, ih, ← hbyte, pow_one, pow_succ', Nat.mod_mul]

theorem value_encode_of_lt {width n : Nat} (h : n < 256 ^ width) :
    value (encode width n) = n := by
  rw [value_encode, Nat.mod_eq_of_lt h]

theorem value_lt (bytes : List UInt8) : value bytes < 256 ^ bytes.length := by
  induction bytes with
  | nil => simp [value]
  | cons b bs ih =>
    have hb : b.toNat < 256 := b.toNat_lt
    rw [value, List.length_cons, pow_succ]
    omega

/-- A byte string is determined by its length and its value. -/
theorem value_inj {xs ys : List UInt8} (hlen : xs.length = ys.length)
    (h : value xs = value ys) : xs = ys := by
  induction xs generalizing ys with
  | nil => exact (List.length_eq_zero_iff.mp hlen.symm).symm
  | cons x xs ih =>
    match ys with
    | [] => simp at hlen
    | y :: ys =>
      have hx := x.toNat_lt
      have hy := y.toNat_lt
      simp only [value] at h
      have hhead : x = y := UInt8.toNat_inj.mp (by omega)
      have htail : xs = ys := ih (by simpa using hlen) (by omega)
      rw [hhead, htail]

theorem encode_value {bytes : List UInt8} {width : Nat} (h : bytes.length = width) :
    encode width (value bytes) = bytes := by
  subst h
  exact value_inj (length_encode _ _) (value_encode_of_lt (value_lt bytes))

theorem read?_isSome_iff {bytes : List UInt8} {offset width : Nat} :
    (read? bytes offset width).isSome ↔ offset + width ≤ bytes.length := by
  unfold read?
  split <;> simp [*]

/-! ### Reading out of a concatenation -/

theorem read?_append_right {front back : List UInt8} {offset width : Nat}
    (h : front.length ≤ offset) :
    read? (front ++ back) offset width = read? back (offset - front.length) width := by
  have hdrop : (front ++ back).drop offset = back.drop (offset - front.length) := by
    rw [List.drop_append, List.drop_eq_nil_of_le h, List.nil_append]
  unfold read?
  rw [hdrop, List.length_append]
  split <;> split <;> first | rfl | omega

theorem read?_append_left {front back : List UInt8} {offset width : Nat}
    (h : offset + width ≤ front.length) :
    read? (front ++ back) offset width = read? front offset width := by
  have htake : ((front ++ back).drop offset).take width = (front.drop offset).take width := by
    rw [List.drop_append_of_le_length (by omega),
      List.take_append_of_le_length (by rw [List.length_drop]; omega)]
  unfold read?
  rw [htake, List.length_append, if_pos (by omega), if_pos h]

theorem read?_drop (bytes : List UInt8) (start offset width : Nat)
    (h : start ≤ bytes.length) :
    read? (bytes.drop start) offset width = read? bytes (start + offset) width := by
  unfold read?
  rw [List.length_drop, List.drop_drop]
  split <;> split <;> first | rfl | omega

theorem read?_encode (width n : Nat) (rest : List UInt8) :
    read? (encode width n ++ rest) 0 width = some (n % 256 ^ width) := by
  rw [read?_append_left (by simp), read?, if_pos (by simp), List.drop_zero,
    List.take_of_length_le (by simp), value_encode]

end LittleEndian
