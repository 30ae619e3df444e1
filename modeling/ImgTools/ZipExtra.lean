import ImgTools.ZipFormat

/-!
# Extra fields

The extra data of a central record is a sequence of fields, of which at most one
is the ZIP64 field. It holds the 64-bit values of those of the three values that
the record itself gives as sentinels, in a fixed order.
-/

namespace ImgTools.Zip.Format

open LittleEndian Exec

/-! ### Fields -/

structure ExtraField where
  id : UInt16
  data : List UInt8
  data_lt : data.length < 2 ^ 16

namespace ExtraField

def bytes (field : ExtraField) : List UInt8 :=
  encode 2 field.id.toNat ++ (encode 2 field.data.length ++ field.data)

theorem length_bytes (field : ExtraField) : field.bytes.length = 4 + field.data.length := by
  simp only [bytes, List.length_append, length_encode]
  omega

end ExtraField

def extraBytes (fields : List ExtraField) : List UInt8 := fields.flatMap ExtraField.bytes

theorem length_le_extraBytes (fields : List ExtraField) :
    fields.length ≤ (extraBytes fields).length := by
  induction fields with
  | nil => exact Nat.le_refl 0
  | cons field fields ih =>
    have hfield := field.length_bytes
    rw [extraBytes, List.flatMap_cons, List.length_append, List.length_cons]
    rw [extraBytes] at ih
    omega

theorem extraField_bytes (front back : List UInt8) (field : ExtraField) (values : Values) :
    extraField (front ++ (field.bytes ++ back)) front.length values =
      (fieldValues (front ++ (field.bytes ++ back)) field.id (front.length + 4) values).map
        fun values' => (front.length + field.bytes.length, values') := by
  have hdata : (UInt16.ofNat field.data.length).toNat = field.data.length :=
    UInt16.toNat_ofNat_of_lt' field.data_lt
  have hid : u16le (front ++ (field.bytes ++ back)) front.length = .ok field.id := by
    rw [u16le_skip (Nat.le_refl _), Nat.sub_self, ExtraField.bytes, List.append_assoc,
      u16le_encode, UInt16.ofNat_toNat]
  have hlen : u16le (front ++ (field.bytes ++ back)) (front.length + 2) =
      .ok (UInt16.ofNat field.data.length) := by
    rw [u16le_skip (by omega), Nat.add_sub_cancel_left, ExtraField.bytes, List.append_assoc,
      List.append_assoc, u16le_skip (by simp), length_encode, u16le_encode]
  have hstop : front.length + 4 + field.data.length = front.length + field.bytes.length := by
    rw [field.length_bytes]
    omega
  have hroom : ¬ (front ++ (field.bytes ++ back)).length < front.length + field.bytes.length := by
    simp only [List.length_append]
    omega
  unfold extraField
  rw [hid, hlen]
  show (if _ < front.length + 4 + (UInt16.ofNat field.data.length).toNat then _ else _) = _
  rw [hdata, hstop, if_neg hroom]
  cases fieldValues (front ++ (field.bytes ++ back)) field.id (front.length + 4) values <;> rfl

theorem loop_field {front back : List UInt8} {field : ExtraField} {values values' : Values}
    (h : fieldValues (front ++ (field.bytes ++ back)) field.id (front.length + 4) values =
      .ok values') (budget : Nat) :
    loop (zip64Turn (front ++ (field.bytes ++ back))) (budget + 1) (front.length, values) =
      loop (zip64Turn (front ++ (field.bytes ++ back))) budget
        ((front ++ field.bytes).length, values') := by
  have hroom : front.length + 4 ≤ (front ++ (field.bytes ++ back)).length := by
    simp only [List.length_append, field.length_bytes]
    omega
  refine loop_next budget ?_
  rw [zip64Turn, if_pos hroom, extraField_bytes, h, List.length_append]
  rfl

/-! ### Wide values -/

/-- The 32-bit field of a value: the value, or the sentinel when it is stored wide. -/
def stored (wide : Bool) (value : UInt64) : UInt32 :=
  if wide then ZIP64_SENTINEL else value.toUInt32

def widePart (wide : Bool) (value : UInt64) : List UInt8 :=
  if wide then encode 8 value.toNat else []

def Storable (wide : Bool) (value : UInt64) : Prop := wide = false → value.toNat < 0xffffffff

/-- Which values are stored wide. -/
structure Wide where
  uncompressed : Bool
  compressed : Bool
  localOffset : Bool

def Wide.any (wide : Wide) : Bool := wide.uncompressed || wide.compressed || wide.localOffset

def storedValues (wide : Wide) (values : Values) : Values :=
  ⟨(stored wide.uncompressed values.uncompressed).toUInt64,
    (stored wide.compressed values.compressed).toUInt64,
    (stored wide.localOffset values.localOffset).toUInt64⟩

/-- The data of the ZIP64 field; `tail` is what it holds behind the values. -/
def zip64Data (wide : Wide) (values : Values) (tail : List UInt8) : List UInt8 :=
  widePart wide.uncompressed values.uncompressed ++
    (widePart wide.compressed values.compressed ++
      (widePart wide.localOffset values.localOffset ++ tail))

structure StorableValues (wide : Wide) (values : Values) : Prop where
  uncompressed : Storable wide.uncompressed values.uncompressed
  compressed : Storable wide.compressed values.compressed
  localOffset : Storable wide.localOffset values.localOffset

/-! ### The extra data of a central record -/

/-- The extra data besides the values: the fields before and after the place of
    the ZIP64 field, and what that field holds behind the values. -/
structure Extra where
  before : List ExtraField
  after : List ExtraField
  tail : List UInt8
  before_id : ∀ field ∈ before, field.id ≠ ZIP64_EXTRA
  after_id : ∀ field ∈ after, field.id ≠ ZIP64_EXTRA

namespace Extra

def zip64Part (extra : Extra) (wide : Wide) (values : Values) : List UInt8 :=
  if wide.any then
    encode 2 ZIP64_EXTRA.toNat ++ (encode 2 (zip64Data wide values extra.tail).length ++
      zip64Data wide values extra.tail)
  else []

def bytes (extra : Extra) (wide : Wide) (values : Values) : List UInt8 :=
  extraBytes extra.before ++ (extra.zip64Part wide values ++ extraBytes extra.after)

end Extra

end ImgTools.Zip.Format
