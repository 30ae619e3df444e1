import ImgTools.Alignment
import ImgTools.Fallible
import ImgTools.Slice
import ImgTools.LittleEndian
import ImgTools.Word

/-!
# Binary helpers

`align_up` of `binary.rs`, and the little-endian field readers that `boot.rs`
uses on a header whose length it has checked. `u64` values are natural numbers
below `2 ^ 64`.
-/

namespace ImgTools

open Exec Alignment

inductive BinaryError where
  | outOfBounds (offset width len : Nat)
  | overflow
  | invalidAlignment
deriving DecidableEq, Repr

def alignUp (value alignment : Nat) : Except BinaryError Nat :=
  if alignment = 0 then .error .invalidAlignment
  else
    let rem := value % alignment
    if rem = 0 then .ok value
    else match checkedAdd 64 value (alignment - rem) with
      | some aligned => .ok aligned
      | none => .error .overflow

/-- The unchecked `alignment - rem` is exact in every arithmetic that has the alignment:
    the function is the same with the subtraction of any build. -/
theorem alignUp_arith {A : Arith} {alignment : Nat} (halignment : A.Fits alignment) (value : Nat) :
    (liftM (alignUp value alignment) : Fallible BinaryError Nat) =
      if alignment = 0 then Fallible.fail .invalidAlignment
      else if value % alignment = 0 then Fallible.ok value
      else liftM (A.sub alignment (value % alignment)) >>= fun gap =>
        match checkedAdd 64 value gap with
        | some aligned => Fallible.ok aligned
        | none => Fallible.fail .overflow := by
  unfold alignUp
  split
  · rfl
  · next hzero =>
    have hrem := Nat.mod_lt value (Nat.pos_of_ne_zero hzero)
    rw [Arith.sub_of_le halignment (Nat.le_of_lt hrem)]
    dsimp only
    split
    · rfl
    · rw [Fallible.lift_done, Fallible.ok_bind]
      split <;> rfl

theorem alignUp_eq_ok {value alignment aligned : Nat} (halignment : 0 < alignment)
    (hvalue : value < 2 ^ 64) :
    alignUp value alignment = .ok aligned ↔
      aligned = roundUp value alignment ∧ roundUp value alignment < 2 ^ 64 := by
  rw [alignUp, if_neg (Nat.ne_of_gt halignment), roundUp_eq halignment]
  by_cases hrem : value % alignment = 0
  · simp only [if_pos hrem, Except.ok.injEq]
    omega
  · simp only [if_neg hrem, checkedAdd]
    by_cases hfit : value + (alignment - value % alignment) < 2 ^ 64
    · simp only [if_pos hfit, Except.ok.injEq]
      omega
    · simp only [if_neg hfit, reduceCtorEq, false_iff]
      omega

/-- `u32::from_le_bytes(bytes[offset..offset + 4].try_into().unwrap())`. -/
def u32le (bytes : List UInt8) (offset : Nat) : Outcome UInt32 := do
  let field ← slice bytes offset (offset + 4)
  return UInt32.ofNat (LittleEndian.value field)

def u64le (bytes : List UInt8) (offset : Nat) : Outcome UInt64 := do
  let field ← slice bytes offset (offset + 8)
  return UInt64.ofNat (LittleEndian.value field)

/-- `if c { u32le(bytes, offset) } else { 0 }`. -/
def u32leIf (c : Prop) [Decidable c] (bytes : List UInt8) (offset : Nat) : Outcome UInt32 :=
  if c then u32le bytes offset else return 0

def u64leIf (c : Prop) [Decidable c] (bytes : List UInt8) (offset : Nat) : Outcome UInt64 :=
  if c then u64le bytes offset else return 0

/-! ### Fields inside the header -/

section Ends

variable {bytes : List UInt8} {offset : Nat}

theorem u32le_ends (h : offset + 4 ≤ bytes.length) : (u32le bytes offset).Ends :=
  (slice_ends (Nat.le_add_right _ _) h).bind fun _ _ => .done _

theorem u64le_ends (h : offset + 8 ≤ bytes.length) : (u64le bytes offset).Ends :=
  (slice_ends (Nat.le_add_right _ _) h).bind fun _ _ => .done _

theorem u32leIf_ends {c : Prop} [Decidable c] (h : c → offset + 4 ≤ bytes.length) :
    (u32leIf c bytes offset).Ends :=
  .ite (fun hc => u32le_ends (h hc)) fun _ => .done _

theorem u64leIf_ends {c : Prop} [Decidable c] (h : c → offset + 8 ≤ bytes.length) :
    (u64leIf c bytes offset).Ends :=
  .ite (fun hc => u64le_ends (h hc)) fun _ => .done _

end Ends

/-! ### Fields of a prefix -/

section Prefix

variable (bytes : List UInt8) {k offset : Nat}

theorem u32le_take (hfield : offset + 4 ≤ k) :
    u32le (bytes.take k) offset = u32le bytes offset := by
  rw [u32le, slice_take bytes hfield, u32le]

theorem u64le_take (hfield : offset + 8 ≤ k) :
    u64le (bytes.take k) offset = u64le bytes offset := by
  rw [u64le, slice_take bytes hfield, u64le]

variable {c : Prop} [Decidable c]

theorem u32leIf_take (hfield : c → offset + 4 ≤ k) :
    u32leIf c (bytes.take k) offset = u32leIf c bytes offset := by
  unfold u32leIf
  split
  · next hc => exact u32le_take bytes (hfield hc)
  · rfl

theorem u64leIf_take (hfield : c → offset + 8 ≤ k) :
    u64leIf c (bytes.take k) offset = u64leIf c bytes offset := by
  unfold u64leIf
  split
  · next hc => exact u64le_take bytes (hfield hc)
  · rfl

end Prefix

/-! ### Fields that are encoded -/

/-- `x.to_le_bytes()` of a `u32`. -/
def le32 (x : UInt32) : List UInt8 := LittleEndian.encode 4 x.toNat

def le64 (x : UInt64) : List UInt8 := LittleEndian.encode 8 x.toNat

@[simp] theorem length_le32 (x : UInt32) : (le32 x).length = 4 := LittleEndian.length_encode 4 _

@[simp] theorem length_le64 (x : UInt64) : (le64 x).length = 8 := LittleEndian.length_encode 8 _

section Encoded

variable {bytes : List UInt8} {offset : Nat}

theorem u32le_eq_done {x : UInt32} (h : slice bytes offset (offset + 4) = .done (le32 x)) :
    u32le bytes offset = .done x := by
  have hvalue : LittleEndian.value (le32 x) = x.toNat :=
    LittleEndian.value_encode_of_lt x.toNat_lt
  rw [u32le, h, Outcome.done_bind, hvalue, UInt32.ofNat_toNat]
  rfl

theorem u64le_eq_done {x : UInt64} (h : slice bytes offset (offset + 8) = .done (le64 x)) :
    u64le bytes offset = .done x := by
  have hvalue : LittleEndian.value (le64 x) = x.toNat :=
    LittleEndian.value_encode_of_lt x.toNat_lt
  rw [u64le, h, Outcome.done_bind, hvalue, UInt64.ofNat_toNat]
  rfl

end Encoded

end ImgTools
