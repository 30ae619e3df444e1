import ImgTools.Binary
import ImgTools.Fallible
import ImgTools.Patches

/-!
# Accesses to a checked range

The readers and the writers of `binary.rs`, for a `usize` of `bits` bits. Each asks
`checked_range` for the bytes of its field first, so that none of them panics. A
buffer that they write to is a list with patches: a field is read back as it was
written, unless one that was accepted later overlaps it.
-/

namespace ImgTools.Binary

open Exec Fallible

variable (bits : Nat)

/-! ### The code -/

/-- The range is given by its two ends. -/
def checkedRange (len offset width : Nat) : Except BinaryError (Nat × Nat) :=
  match checkedAdd bits offset width with
  | none => .error .overflow
  | some finish =>
    if len < finish then .error (.outOfBounds offset width len) else .ok (offset, finish)

/-- A field of `width` bytes; `decode` is `from_le_bytes` or `from_be_bytes`. -/
def readField {α : Type} (decode : List UInt8 → α) (width : Nat) (bytes : List UInt8)
    (offset : Nat) : Fallible BinaryError α := do
  let r ← ofExcept id (checkedRange bits bytes.length offset width)
  let field ← slice bytes r.1 r.2
  return decode field

section Readers

variable (bytes : List UInt8) (offset : Nat)

def readU16Le : Fallible BinaryError UInt16 :=
  readField bits (fun field => UInt16.ofNat (LittleEndian.value field)) 2 bytes offset

def readU32Le : Fallible BinaryError UInt32 :=
  readField bits (fun field => UInt32.ofNat (LittleEndian.value field)) 4 bytes offset

def readU64Le : Fallible BinaryError UInt64 :=
  readField bits (fun field => UInt64.ofNat (LittleEndian.value field)) 8 bytes offset

def readU16Be : Fallible BinaryError UInt16 :=
  readField bits (fun field => UInt16.ofNat (LittleEndian.value field.reverse)) 2 bytes offset

def readU32Be : Fallible BinaryError UInt32 :=
  readField bits (fun field => UInt32.ofNat (LittleEndian.value field.reverse)) 4 bytes offset

def readU64Be : Fallible BinaryError UInt64 :=
  readField bits (fun field => UInt64.ofNat (LittleEndian.value field.reverse)) 8 bytes offset

end Readers

/-- The result, and what is in `out` afterwards. -/
def writeField (width : Nat) (field out : List UInt8) (offset : Nat) :
    Outcome (Except BinaryError Unit × List UInt8) :=
  match checkedRange bits out.length offset width with
  | .error e => return (.error e, out)
  | .ok r => do
    let out ← copyFromSlice out r.1 r.2 field
    return (.ok (), out)

def writeU32Le (out : List UInt8) (offset : Nat) (value : UInt32) :
    Outcome (Except BinaryError Unit × List UInt8) := writeField bits 4 (le32 value) out offset

def writeU64Le (out : List UInt8) (offset : Nat) (value : UInt64) :
    Outcome (Except BinaryError Unit × List UInt8) := writeField bits 8 (le64 value) out offset

/-! ### Runs of writes -/

inductive Write where
  | u32 (offset : Nat) (value : UInt32)
  | u64 (offset : Nat) (value : UInt64)
deriving DecidableEq, Repr

def Write.run : Write → List UInt8 → Outcome (Except BinaryError Unit × List UInt8)
  | .u32 offset value, out => writeU32Le bits out offset value
  | .u64 offset value, out => writeU64Le bits out offset value

def Write.patch : Write → Patch UInt8
  | .u32 offset value => ⟨offset, le32 value⟩
  | .u64 offset value => ⟨offset, le64 value⟩

def runWrites : List Write → List UInt8 →
    Outcome (List (Except BinaryError Unit) × List UInt8)
  | [], out => return ([], out)
  | write :: writes, out => do
    let (result, out) ← write.run bits out
    let (results, out) ← runWrites writes out
    return (result :: results, out)

/-- The patches that are inside a buffer of `len` bytes. -/
def accepted (len : Nat) (writes : List Write) : List (Patch UInt8) :=
  (writes.map Write.patch).filter (·.region.finish ≤ len)

def rangeError (len : Nat) (r : Region) : BinaryError :=
  if r.finish < 2 ^ bits then .outOfBounds r.start r.size len else .overflow

def Write.result (len : Nat) (write : Write) : Except BinaryError Unit :=
  if write.patch.region.finish ≤ len then .ok ()
  else .error (rangeError bits len write.patch.region)

/-! ### One access -/

section Access

variable {bits} {len : Nat}

theorem checkedRange_of_le {offset width : Nat} (hlen : len < 2 ^ bits)
    (h : offset + width ≤ len) :
    checkedRange bits len offset width = .ok (offset, offset + width) := by
  have hsum : checkedAdd bits offset width = some (offset + width) :=
    checkedAdd_eq_some.mpr ⟨Nat.lt_of_le_of_lt h hlen, rfl⟩
  rw [checkedRange, hsum]
  exact if_neg (Nat.not_lt.mpr h)

theorem checkedRange_of_lt {offset width : Nat} (h : len < offset + width) :
    checkedRange bits len offset width = .error (rangeError bits len ⟨offset, width⟩) := by
  rw [checkedRange, checkedAdd, rangeError, Region.finish]
  by_cases hfits : offset + width < 2 ^ bits
  · rw [if_pos hfits, if_pos hfits]
    exact if_pos h
  · rw [if_neg hfits, if_neg hfits]

theorem readField_of_le {bytes : List UInt8} {offset width : Nat} (hlen : bytes.length < 2 ^ bits)
    (h : offset + width ≤ bytes.length) :
    ∃ field : List UInt8, field.length = width ∧ (∀ k < width, field[k]? = bytes[offset + k]?) ∧
      ∀ {α : Type} (decode : List UInt8 → α),
        readField bits decode width bytes offset = ok (decode field) := by
  refine ⟨(bytes.take (offset + width)).drop offset, ?_, ?_, ?_⟩
  · rw [List.length_drop, List.length_take_of_le h, Nat.add_sub_cancel_left]
  · intro k hk
    rw [List.getElem?_drop, List.getElem?_take_of_lt (Nat.add_lt_add_left hk offset)]
  · intro α decode
    rw [readField, checkedRange_of_le hlen h, ofExcept_ok, ok_bind,
      slice_of_le (Nat.le_add_right _ _) h]
    rfl

theorem readField_of_lt {α : Type} {bytes : List UInt8} {offset width : Nat}
    (decode : List UInt8 → α) (h : bytes.length < offset + width) :
    readField bits decode width bytes offset =
      fail (rangeError bits bytes.length ⟨offset, width⟩) := by
  rw [readField, checkedRange_of_lt h]
  rfl

/-- A writer puts its patch into the buffer, or leaves the buffer as it is. -/
theorem writeField_eq {patch : Patch UInt8} {width : Nat} {out : List UInt8}
    (hwidth : patch.data.length = width) (hlen : out.length < 2 ^ bits) :
    writeField bits width patch.data out patch.start =
      .done (if patch.region.finish ≤ out.length then (.ok (), Patch.apply out patch)
        else (.error (rangeError bits out.length patch.region), out)) := by
  subst hwidth
  unfold writeField
  by_cases h : patch.region.finish ≤ out.length
  · have hchecked : checkedRange bits out.length patch.start patch.data.length =
        .ok (patch.start, patch.region.finish) := checkedRange_of_le hlen h
    rw [hchecked, if_pos h]
    dsimp only
    have hcopy : copyFromSlice out patch.start patch.region.finish patch.data =
        .done (Patch.apply out patch) :=
      copyFromSlice_of_le (Nat.le_add_right _ _) h (Nat.add_sub_cancel_left _ _).symm
    rw [hcopy]
    rfl
  · have hchecked : checkedRange bits out.length patch.start patch.data.length =
        .error (rangeError bits out.length patch.region) := checkedRange_of_lt (Nat.not_le.mp h)
    rw [hchecked, if_neg h]
    rfl

theorem Write.run_eq (write : Write) {out : List UInt8} (hlen : out.length < 2 ^ bits) :
    write.run bits out = .done (if write.patch.region.finish ≤ out.length then
        (.ok (), Patch.apply out write.patch)
      else (.error (rangeError bits out.length write.patch.region), out)) := by
  cases write with
  | u32 offset value =>
    have hwidth : (Write.u32 offset value).patch.data.length = 4 := length_le32 value
    exact writeField_eq hwidth hlen
  | u64 offset value =>
    have hwidth : (Write.u64 offset value).patch.data.length = 8 := length_le64 value
    exact writeField_eq hwidth hlen

end Access

/-! ### Runs -/

section Runs

variable {bits} {out : List UInt8}

theorem accepted_inside {len : Nat} {writes : List Write} :
    ∀ p ∈ accepted len writes, p.region.finish ≤ len := by
  intro p hp
  simpa using (List.mem_filter.mp hp).2

theorem accepted_cons (len : Nat) (write : Write) (writes : List Write) :
    accepted len (write :: writes) = if write.patch.region.finish ≤ len then
      write.patch :: accepted len writes else accepted len writes := by
  simp only [accepted, List.map_cons, List.filter_cons, decide_eq_true_eq]

theorem accepted_append (len : Nat) (before later : List Write) :
    accepted len (before ++ later) = accepted len before ++ accepted len later := by
  simp only [accepted, List.map_append, List.filter_append]

theorem runWrites_eq (writes : List Write) (hlen : out.length < 2 ^ bits) :
    runWrites bits writes out = .done (writes.map (Write.result bits out.length),
      (accepted out.length writes).foldl Patch.apply out) := by
  induction writes generalizing out with
  | nil => rfl
  | cons write writes ih =>
    rw [runWrites, write.run_eq hlen, Outcome.done_bind, List.map_cons, Write.result,
      accepted_cons]
    by_cases h : write.patch.region.finish ≤ out.length
    · have hlength := Patch.length_apply h
      rw [if_pos h, if_pos h, if_pos h, List.foldl_cons]
      dsimp only
      rw [ih (by rwa [hlength]), hlength]
      rfl
    · rw [if_neg h, if_neg h, if_neg h]
      dsimp only
      rw [ih hlen]
      rfl

/-- **The newest write wins.** A run of writes ends without a panic and keeps the length
    of the buffer; a call fails exactly if its range does not fit, and says why; and what
    is read afterwards are the bytes of the newest calls that were accepted, and those of
    the buffer where there are none. -/
theorem runWrites_newest (bits : Nat) (writes : List Write) (out : List UInt8)
    (hlen : out.length < 2 ^ bits) :
    ∃ out', runWrites bits writes out = .done (writes.map (Write.result bits out.length), out') ∧
      out'.length = out.length ∧
      ∀ offset width,
        (offset + width ≤ out.length → ∃ field : List UInt8, field.length = width ∧
          (∀ k < width, field[k]? =
            Patch.found (fun i => out[i]?) (accepted out.length writes) (offset + k)) ∧
          ∀ {α : Type} (decode : List UInt8 → α),
            readField bits decode width out' offset = ok (decode field)) ∧
        (out.length < offset + width → ∀ {α : Type} (decode : List UInt8 → α),
          readField bits decode width out' offset =
            fail (rangeError bits out.length ⟨offset, width⟩)) := by
  have hinside : ∀ p ∈ accepted out.length writes, p.region.finish ≤ out.length := accepted_inside
  have hlength := Patch.length_foldl_apply hinside
  refine ⟨_, runWrites_eq writes hlen, hlength, ?_⟩
  intro offset width
  constructor
  · intro h
    obtain ⟨field, hwidth, hbytes, hread⟩ := readField_of_le (hlength.trans_lt hlen)
      (h.trans_eq hlength.symm)
    refine ⟨field, hwidth, ?_, hread⟩
    intro k hk
    rw [hbytes k hk, ← Patch.getElem?_foldl_apply hinside]
  · intro h α decode
    rw [readField_of_lt decode (hlength.trans_lt h), hlength]

/-- Two values that overlap, read across their seam, behind a call that fails. -/
theorem runWrites_newest_overlap :
    ∃ out', runWrites 32 [.u32 0 0x04030201, .u64 4 9, .u32 1 0x08070605] [0, 0, 0, 0, 0, 0] =
        .done ([.ok (), .error (.outOfBounds 4 8 6), .ok ()], out') ∧
      readU16Be 32 out' 0 = ok 0x0105 := by
  obtain ⟨out', hrun, -, hread⟩ := runWrites_newest 32
    [.u32 0 0x04030201, .u64 4 9, .u32 1 0x08070605] [0, 0, 0, 0, 0, 0] (by decide)
  obtain ⟨field, hwidth, hbytes, hfield⟩ := (hread 0 2).1 (by decide)
  have hseam : field = [1, 5] := by
    refine List.ext_getElem? fun k => ?_
    match k with
    | 0 => exact hbytes 0 (by decide)
    | 1 => exact hbytes 1 (by decide)
    | k + 2 => exact List.getElem?_eq_none (by omega)
  subst hseam
  exact ⟨out', hrun, hfield fun field => UInt16.ofNat (LittleEndian.value field.reverse)⟩

def Write.ReadBack (bits : Nat) (out : List UInt8) : Write → Prop
  | .u32 offset value => readU32Le bits out offset = ok value
  | .u64 offset value => readU64Le bits out offset = ok value

/-- **No write is lost.** A value that was accepted is read back, whatever was written
    before it, until a call that is accepted overlaps it. -/
theorem runWrites_readBack (bits : Nat) (before later : List Write) (write : Write)
    (out : List UInt8) (hlen : out.length < 2 ^ bits)
    (hfits : write.patch.region.finish ≤ out.length)
    (hlater : ∀ other ∈ later, other.patch.region.finish ≤ out.length →
      other.patch.region.Disjoint write.patch.region) :
    ∃ results out', runWrites bits (before ++ write :: later) out = .done (results, out') ∧
      write.ReadBack bits out' := by
  obtain ⟨out', hrun, -, hread⟩ := runWrites_newest bits (before ++ write :: later) out hlen
  refine ⟨_, out', hrun, ?_⟩
  obtain ⟨field, hwidth, hbytes, hfield⟩ :=
    (hread write.patch.start write.patch.data.length).1 hfits
  have hdisjoint : ∀ p ∈ accepted out.length later, p.region.Disjoint write.patch.region := by
    intro p hp
    obtain ⟨hp, hinside⟩ := List.mem_filter.mp hp
    obtain ⟨other, hother, rfl⟩ := List.mem_map.mp hp
    exact hlater other hother (of_decide_eq_true hinside)
  have hfound : field = write.patch.data := by
    refine List.ext_getElem? fun k => ?_
    by_cases hk : k < write.patch.data.length
    · rw [hbytes k hk, accepted_append, accepted_cons, if_pos hfits,
        Patch.found_of_disjoint hdisjoint hk]
    · rw [List.getElem?_eq_none (by omega), List.getElem?_eq_none (by omega)]
  subst hfound
  cases write with
  | u32 offset value =>
    have hvalue : LittleEndian.value (le32 value) = value.toNat :=
      LittleEndian.value_encode_of_lt value.toNat_lt
    have h := hfield fun field => UInt32.ofNat (LittleEndian.value field)
    dsimp only [Write.patch] at h
    rw [length_le32, hvalue, UInt32.ofNat_toNat] at h
    exact h
  | u64 offset value =>
    have hvalue : LittleEndian.value (le64 value) = value.toNat :=
      LittleEndian.value_encode_of_lt value.toNat_lt
    have h := hfield fun field => UInt64.ofNat (LittleEndian.value field)
    dsimp only [Write.patch] at h
    rw [length_le64, hvalue, UInt64.ofNat_toNat] at h
    exact h

end Runs

end ImgTools.Binary
