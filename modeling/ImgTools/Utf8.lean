import Mathlib.Data.List.Basic

/-!
# Lossy decoding of UTF-8

Decoding of a byte string that need not be UTF-8: every maximal ill-formed part
becomes one replacement character. On the encoding of a string nothing is lost.
-/

namespace Utf8

def encode (s : String) : List UInt8 := s.toList.flatMap String.utf8EncodeChar

def replacement : Char := Char.ofNat 0xFFFD

def isContinuation (b : UInt8) : Bool := 0x80 ≤ b && b ≤ 0xBF

/-- The second bytes that can follow a leading byte of three or four bytes. -/
def secondFits (lead second : UInt8) : Bool :=
  if lead = 0xE0 then 0xA0 ≤ second && second ≤ 0xBF
  else if lead = 0xED then 0x80 ≤ second && second ≤ 0x9F
  else if 0xE1 ≤ lead ∧ lead ≤ 0xEF then isContinuation second
  else if lead = 0xF0 then 0x90 ≤ second && second ≤ 0xBF
  else if lead = 0xF4 then 0x80 ≤ second && second ≤ 0x8F
  else if 0xF1 ≤ lead ∧ lead ≤ 0xF3 then isContinuation second
  else false

/-- The length of the ill-formed part a byte string starts with: its first byte
    and the bytes after it with which a character could still have begun. -/
def brokenLength : List UInt8 → Nat
  | lead :: second :: rest =>
    if secondFits lead second then
      match rest with
      | third :: _ => if 0xF0 ≤ lead ∧ isContinuation third then 3 else 2
      | [] => 2
    else 1
  | _ => 1

theorem brokenLength_pos (bytes : List UInt8) : 0 < brokenLength bytes := by
  unfold brokenLength
  repeat' split
  all_goals decide

def lossyChars (bytes : List UInt8) : List Char :=
  if bytes = [] then []
  else match bytes.toByteArray.utf8DecodeChar? 0 with
    | some c => c :: lossyChars (bytes.drop c.utf8Size)
    | none => replacement :: lossyChars (bytes.drop (brokenLength bytes))
termination_by bytes.length
decreasing_by
  all_goals
    have hbytes : 0 < bytes.length := List.length_pos_iff.mpr ‹_›
    have hbroken := brokenLength_pos bytes
    rw [List.length_drop]
  · have hsize := c.utf8Size_pos
    omega
  · omega

def fromUtf8Lossy (bytes : List UInt8) : String := String.ofList (lossyChars bytes)

theorem lossyChars_encode (chars : List Char) :
    lossyChars (chars.flatMap String.utf8EncodeChar) = chars := by
  induction chars with
  | nil => rw [List.flatMap_nil, lossyChars, if_pos rfl]
  | cons c chars ih =>
    have hlen := String.length_utf8EncodeChar c
    have hne : String.utf8EncodeChar c ++ chars.flatMap String.utf8EncodeChar ≠ [] := by
      have hsize := c.utf8Size_pos
      exact List.append_ne_nil_of_left_ne_nil (List.ne_nil_of_length_pos (by omega)) _
    rw [List.flatMap_cons, lossyChars, if_neg hne, List.toByteArray_append,
      ByteArray.utf8DecodeChar?_utf8EncodeChar_append]
    simp only [← hlen, List.drop_left, ih]

/-- **Nothing is lost on UTF-8.** -/
theorem fromUtf8Lossy_encode (s : String) : fromUtf8Lossy (encode s) = s := by
  rw [fromUtf8Lossy, encode, lossyChars_encode, String.ofList_toList]

end Utf8
