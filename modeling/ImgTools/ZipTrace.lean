import ImgTools.ZipEnd
import ImgTools.ZipWalk

/-!
# What a walk has met

The turns of a walk that lists its entries, as a relation between the cursor and
the source before and after them: each turn has met a central record and the
bytes of the local header that the record refers to. Nothing is asked of the
source.
-/

namespace ImgTools.Zip

open Exec LittleEndian

/-! ### Records by their own bytes -/

def recordLength (bytes : List UInt8) : Nat :=
  46 + field bytes 28 2 + field bytes 30 2 + field bytes 32 2

def recordFixed (bytes : List UInt8) : Values where
  uncompressed := UInt64.ofNat (field bytes 24 4)
  compressed := UInt64.ofNat (field bytes 20 4)
  localOffset := UInt64.ofNat (field bytes 42 4)

def recordExtra (bytes : List UInt8) : List UInt8 :=
  (bytes.drop (46 + field bytes 28 2)).take (field bytes 30 2)

def recordValues (bytes : List UInt8) : Fallible ZipError Values :=
  zip64Values (recordExtra bytes) (recordFixed bytes)

def recordName (bytes : List UInt8) : List UInt8 := (bytes.drop 46).take (field bytes 28 2)

/-- What the reader takes from the bytes of a central record. -/
structure Gives (bytes : List UInt8) (record : CentralRecord) : Prop where
  name_eq : record.name = Utf8.fromUtf8Lossy (recordName bytes)
  method_eq : record.method.toNat = field bytes 10 2
  crc32_eq : record.crc32.toNat = field bytes 16 4
  values_eq : recordValues bytes = Fallible.ok record.values

def localLength (header : List UInt8) : Nat := 30 + field header 26 2 + field header 28 2

/-- The bytes of one central record. -/
structure IsRecord (bytes : List UInt8) : Prop where
  fixed_le : 46 ≤ bytes.length
  signature : hasSignature bytes 0 CENTRAL_HEADER = true
  length_eq : bytes.length = recordLength bytes

section Append

variable {front : List UInt8} (back : List UInt8)

theorem take_drop_append {position width : Nat} (h : position + width ≤ front.length) :
    ((front ++ back).drop position).take width = (front.drop position).take width := by
  rw [List.drop_append_of_le_length (by omega),
    List.take_append_of_le_length (by rw [List.length_drop]; omega)]

theorem field_append {position width : Nat} (h : position + width ≤ front.length) :
    field (front ++ back) position width = field front position width := by
  rw [field, take_drop_append back h, field]

theorem hasSignature_append (h : 4 ≤ front.length) (signature : UInt32) :
    hasSignature (front ++ back) 0 signature = hasSignature front 0 signature := by
  rw [hasSignature, hasSignature, u32le, u32le, read?_append_left (by omega)]

theorem recordLength_append (h : 46 ≤ front.length) :
    recordLength (front ++ back) = recordLength front := by
  unfold recordLength
  rw [field_append back (by omega), field_append back (by omega), field_append back (by omega)]

/-- A record says the same with other bytes behind it. -/
theorem recordValues_append (h : 46 ≤ front.length) (hlength : recordLength front ≤ front.length) :
    recordValues (front ++ back) = recordValues front := by
  unfold recordLength at hlength
  unfold recordValues recordExtra recordFixed
  rw [field_append back (by omega), field_append back (by omega), field_append back (by omega),
    field_append back (by omega), field_append back (by omega), take_drop_append back (by omega)]

/-- The reader takes the same from a record with other bytes behind it. -/
theorem Gives.of_append {record : CentralRecord} (h : 46 ≤ front.length)
    (hlength : recordLength front ≤ front.length) (hgives : Gives (front ++ back) record) :
    Gives front record := by
  have hname : recordName (front ++ back) = recordName front := by
    unfold recordLength at hlength
    rw [recordName, field_append back (by omega), take_drop_append back (by omega), recordName]
  constructor
  · rw [hgives.name_eq, hname]
  · rw [hgives.method_eq, field_append back (by omega)]
  · rw [hgives.crc32_eq, field_append back (by omega)]
  · rw [← recordValues_append back h hlength, hgives.values_eq]

end Append

/-! ### One record of the directory -/

section Record

variable {B : Build} {central : List UInt8} {cursor : Nat}

theorem u16At_eq_ok {k : Nat} {v : UInt16} (hfits : cursor + 46 < 2 ^ B.usizeBits) (hk : k ≤ 46)
    (h : u16At B central cursor k = Fallible.ok v) : v.toNat = field (central.drop cursor) k 2 := by
  rw [u16At_eq hfits hk] at h
  rw [field_drop]
  exact (u16le_eq_ok (Outcome.done.inj h)).2

theorem u32At_eq_ok {k : Nat} {v : UInt32} (hfits : cursor + 46 < 2 ^ B.usizeBits) (hk : k ≤ 46)
    (h : u32At B central cursor k = Fallible.ok v) : v.toNat = field (central.drop cursor) k 4 := by
  rw [u32At_eq hfits hk] at h
  rw [field_drop]
  exact (u32le_eq_ok (Outcome.done.inj h)).2

theorem toUInt64_eq_ofNat {v : UInt32} {n : Nat} (h : v.toNat = n) :
    v.toUInt64 = UInt64.ofNat n := by
  rw [← h]
  exact (UInt64.ofNat_uInt32ToNat v).symm

theorem centralFields_eq_ok {fields : CentralFields} (hfits : cursor + 46 < 2 ^ B.usizeBits)
    (h : centralFields B central cursor = Fallible.ok fields) :
    (fields.method.toNat = field (central.drop cursor) 10 2 ∧
      fields.crc32.toNat = field (central.drop cursor) 16 4) ∧
    fields.nameLen.toNat = field (central.drop cursor) 28 2 ∧
      fields.extraLen.toNat = field (central.drop cursor) 30 2 ∧
      fields.commentLen.toNat = field (central.drop cursor) 32 2 ∧
      ⟨fields.uncompressed.toUInt64, fields.compressed.toUInt64, fields.localOffset.toUInt64⟩ =
        recordFixed (central.drop cursor) := by
  unfold centralFields at h
  obtain ⟨method, hmethod, h⟩ := Fallible.bind_eq_ok.mp h
  obtain ⟨crc32, hcrc32, h⟩ := Fallible.bind_eq_ok.mp h
  obtain ⟨compressed, hcompressed, h⟩ := Fallible.bind_eq_ok.mp h
  obtain ⟨uncompressed, huncompressed, h⟩ := Fallible.bind_eq_ok.mp h
  obtain ⟨nameLen, hname, h⟩ := Fallible.bind_eq_ok.mp h
  obtain ⟨extraLen, hextra, h⟩ := Fallible.bind_eq_ok.mp h
  obtain ⟨commentLen, hcomment, h⟩ := Fallible.bind_eq_ok.mp h
  obtain ⟨localOffset, hoffset, h⟩ := Fallible.bind_eq_ok.mp h
  cases Fallible.ok_inj.mp h
  refine ⟨⟨u16At_eq_ok hfits (by decide) hmethod, u32At_eq_ok hfits (by decide) hcrc32⟩,
    u16At_eq_ok hfits (by decide) hname, u16At_eq_ok hfits (by decide) hextra,
    u16At_eq_ok hfits (by decide) hcomment, ?_⟩
  dsimp only
  rw [toUInt64_eq_ofNat (u32At_eq_ok hfits (by decide) huncompressed),
    toUInt64_eq_ofNat (u32At_eq_ok hfits (by decide) hcompressed),
    toUInt64_eq_ofNat (u32At_eq_ok hfits (by decide) hoffset), recordFixed]

/-- A record that was read lies in the directory and is as long as it says. -/
theorem centralRecord_eq_ok {index : Nat} {record : CentralRecord}
    (h : centralRecord B central index cursor = Fallible.ok record) :
    cursor + 46 ≤ central.length ∧ hasSignature central cursor CENTRAL_HEADER = true ∧
      record.next = cursor + recordLength (central.drop cursor) ∧ record.next ≤ central.length ∧
      Gives (central.drop cursor) record := by
  unfold centralRecord at h
  obtain ⟨_, hwhole, h⟩ := Fallible.bind_eq_ok.mp h
  obtain ⟨hfits, hcursor, hsignature⟩ := cursor_of_not_damaged (Fallible.failIf_eq_ok.mp hwhole)
  obtain ⟨fields, hfields, h⟩ := Fallible.bind_eq_ok.mp h
  obtain ⟨ends, hends, h⟩ := Fallible.bind_eq_ok.mp h
  obtain ⟨_, hnext, h⟩ := Fallible.bind_eq_ok.mp h
  obtain ⟨name, hnameSlice, h⟩ := Fallible.bind_eq_ok.mp h
  obtain ⟨extra, hextraSlice, h⟩ := Fallible.bind_eq_ok.mp h
  obtain ⟨values, hvalues, h⟩ := Fallible.bind_eq_ok.mp h
  cases Fallible.ok_inj.mp h
  obtain ⟨hstart, hname, hextra, hcomment⟩ := (spans_stops fields hfits).of_ok hends
  obtain ⟨⟨hmethod, hcrc32⟩, hnameLen, hextraLen, hcommentLen, hfixed⟩ :=
    centralFields_eq_ok hfits hfields
  have hle := Nat.not_lt.mp (Fallible.failIf_eq_ok.mp hnext)
  have hnameArea : recordName (central.drop cursor) = name := by
    rw [slice_of_le (by omega) (by omega)] at hnameSlice
    rw [← Fallible.ok_inj.mp hnameSlice, recordName, ← hnameLen, List.drop_drop, List.drop_take]
    congr 2 <;> omega
  have hextraArea : recordExtra (central.drop cursor) = extra := by
    rw [slice_of_le (by omega) (by omega)] at hextraSlice
    rw [← Fallible.ok_inj.mp hextraSlice, recordExtra, ← hnameLen, ← hextraLen, List.drop_drop,
      List.drop_take]
    congr 2 <;> omega
  refine ⟨hcursor, hsignature, ?_, hle, ?_, hmethod, hcrc32, ?_⟩
  · rw [recordLength, ← hnameLen, ← hextraLen, ← hcommentLen]
    dsimp only
    omega
  · rw [hnameArea]
  · rw [recordValues, hextraArea, ← hfixed]
    exact hvalues

/-- The bytes that a turn has passed. -/
theorem isRecord_of_centralRecord {index : Nat} {record : CentralRecord}
    (h : centralRecord B central index cursor = Fallible.ok record) :
    ∃ bytes, IsRecord bytes ∧ Gives bytes record ∧
      central.drop cursor = bytes ++ central.drop record.next := by
  obtain ⟨hcursor, hsignature, hnext, hle, hgives⟩ := centralRecord_eq_ok h
  have hfixed : 46 ≤ recordLength (central.drop cursor) := by
    unfold recordLength
    omega
  obtain ⟨bytes, hbytes⟩ : ∃ bytes, bytes = (central.drop cursor).take (record.next - cursor) :=
    ⟨_, rfl⟩
  have hsplit : central.drop cursor = bytes ++ central.drop record.next := by
    have hbehind : central.drop record.next =
        (central.drop cursor).drop (record.next - cursor) := by
      rw [List.drop_drop, Nat.add_sub_cancel' (by omega)]
    rw [hbytes, hbehind, List.take_append_drop]
  have hlength : bytes.length = recordLength (central.drop cursor) := by
    rw [hbytes, List.length_take, List.length_drop]
    omega
  have hself : recordLength (central.drop cursor) = recordLength bytes := by
    rw [hsplit, recordLength_append _ (by omega)]
  refine ⟨bytes, ⟨by omega, ?_, hlength.trans hself⟩, ?_, hsplit⟩
  · rw [← hasSignature_append (central.drop record.next) (by omega), ← hsplit,
      hasSignature_drop (by omega)]
    exact hsignature
  · rw [hsplit] at hgives
    exact hgives.of_append _ (by omega) (by omega)

end Record

theorem add_eq_ok {a b c : UInt64} (h : add a b = .ok c) : c.toNat = a.toNat + b.toNat := by
  unfold add checkedAdd at h
  by_cases hlt : a.toNat + b.toNat < 2 ^ 64
  · rw [if_pos hlt] at h
    cases h
    exact UInt64.toNat_ofNat_of_lt' hlt
  · rw [if_neg hlt] at h
    cases h

/-! ### The turns -/

/-- What a turn has met: the bytes of a central record and what they say, the
    bytes of the local header that it refers to, and the place of the data. -/
structure Met where
  bytes : List UInt8
  record : CentralRecord
  header : List UInt8
  dataOffset : UInt64
  isRecord : IsRecord bytes
  values_eq : recordValues bytes = Fallible.ok record.values
  dataOffset_eq : dataOffset.toNat = record.values.localOffset.toNat + localLength header

def Met.entry (met : Met) : ZipEntry :=
  ⟨met.record.name, met.record.method, met.record.crc32, met.record.values.compressed,
    met.record.values.uncompressed, met.dataOffset⟩

section Source

variable {S : Type} [ByteSource S] {B : Build} {central : List UInt8}

/-- The place of the data is behind a header that the source has returned. -/
theorem dataOffset_eq_ok {name : String} {localOffset offset : UInt64} {s s' : S}
    (h : (dataOffset name localOffset).run s = .done (.ok offset, s')) :
    ∃ header, (readSource localOffset 30).run s = .done (.ok header, s') ∧ 30 ≤ header.length ∧
      hasSignature header 0 LOCAL_HEADER = true ∧
      offset.toNat = localOffset.toNat + localLength header := by
  unfold dataOffset at h
  obtain ⟨header, s₁, hheader, h⟩ := Reading.bind_eq_ok.mp h
  split at h
  · cases h
  · next hwhole =>
    obtain ⟨hlength, hsignature⟩ := not_or.mp hwhole
    obtain ⟨nameLen, s₂, hname, hbehind⟩ := Reading.bind_eq_ok.mp h
    obtain ⟨extraLen, s₃, hextra, hsums⟩ := Reading.bind_eq_ok.mp hbehind
    obtain ⟨start, s₄, hstart, hrest⟩ := Reading.bind_eq_ok.mp hsums
    obtain ⟨lengths, s₅, hlengths, hoffset⟩ := Reading.bind_eq_ok.mp hrest
    obtain ⟨hnameLen, rfl⟩ := Reading.except_eq_ok.mp hname
    obtain ⟨hextraLen, rfl⟩ := Reading.except_eq_ok.mp hextra
    obtain ⟨hfirst, rfl⟩ := Reading.except_eq_ok.mp hstart
    obtain ⟨hsecond, rfl⟩ := Reading.except_eq_ok.mp hlengths
    obtain ⟨hthird, rfl⟩ := Reading.except_eq_ok.mp hoffset
    refine ⟨header, hheader, Nat.not_lt.mp hlength, (Bool.not_eq_false _).mp hsignature, ?_⟩
    have hsum := add_eq_ok hsecond
    rw [UInt16.toNat_toUInt64, UInt16.toNat_toUInt64, (u16le_eq_ok hnameLen).2,
      (u16le_eq_ok hextraLen).2] at hsum
    rw [add_eq_ok hthird, add_eq_ok hfirst, hsum, localLength]
    show localOffset.toNat + 30 + _ = _
    omega

/-- The turns of a walk over `central`, from a cursor to the one behind the last record. -/
inductive Walked (B : Build) (central : List UInt8) :
    (index cursor : Nat) → S → List Met → (last : Nat) → S → Prop where
  | stop (index cursor : Nat) (s : S) : Walked B central index cursor s [] cursor s
  | turn {index cursor last : Nat} {s s₁ s' : S} {met : Met} {rest : List Met}
      (record : centralRecord B central index cursor = Fallible.ok met.record)
      (bytes : central.drop cursor = met.bytes ++ central.drop met.record.next)
      (header : (readSource met.record.values.localOffset 30).run s = .done (.ok met.header, s₁))
      (next : Walked B central (index + 1) met.record.next s₁ rest last s') :
      Walked B central index cursor s (met :: rest) last s'

/-- **A walk that lists its entries has met each of them.** -/
theorem walked_of_walk {count index cursor : Nat} {s s' : S} {entries : List ZipEntry}
    (h : (walk B central count index cursor).run s = .done (.ok entries, s')) :
    ∃ met last, Walked B central index cursor s met last s' ∧ met.length = count ∧
      entries = met.map Met.entry := by
  induction count generalizing index cursor s entries with
  | zero =>
    cases h
    exact ⟨[], cursor, .stop _ _ _, rfl, rfl⟩
  | succ count ih =>
    unfold walk at h
    obtain ⟨record, s₁, hlift, hbehind⟩ := Reading.bind_eq_ok.mp h
    obtain ⟨hrecord, rfl⟩ := Reading.lift_eq_ok.mp hlift
    obtain ⟨offset, s₂, hoffset, hentry⟩ := Reading.bind_eq_ok.mp hbehind
    obtain ⟨header, hheader, -, -, hsum⟩ := dataOffset_eq_ok hoffset
    obtain ⟨rest, s₃, hrest, hlast⟩ := Reading.bind_eq_ok.mp hentry
    cases hlast
    obtain ⟨bytes, hbytes, hgives, hsplit⟩ := isRecord_of_centralRecord hrecord
    obtain ⟨met, last, hwalked, hlength, rfl⟩ := ih hrest
    exact ⟨⟨bytes, record, header, offset, hbytes, hgives.values_eq, hsum⟩ :: met, last,
      .turn hrecord hsplit hheader hwalked, by rw [List.length_cons, hlength], rfl⟩

theorem readDirectory_eq_ok {s s' : S} {record : EndRecord} {central : List UInt8} :
    (readDirectory B).run s = .done (.ok (record, central), s') ↔
      ∃ s₁ length, (readEnd (S := S)).run s = .done (.ok record, s₁) ∧
        B.usizeFrom record.centralSize = some length ∧
        (readSource record.centralOffset length).run s₁ = .done (.ok central, s') ∧
        UInt64.ofNat central.length = record.centralSize := by
  unfold readDirectory
  constructor
  · intro h
    obtain ⟨record', s₁, hend, h⟩ := Reading.bind_eq_ok.mp h
    rcases hlength : B.usizeFrom record'.centralSize with _ | length
    · rw [hlength] at h
      cases h
    · rw [hlength] at h
      obtain ⟨central', s₂, hread, h⟩ := Reading.bind_eq_ok.mp h
      split at h
      · cases h
      · next hsize =>
        cases h
        exact ⟨s₁, length, hend, hlength, hread, Decidable.not_not.mp hsize⟩
  · rintro ⟨s₁, length, hend, hlength, hread, hsize⟩
    rw [Reading.bind_of_ok hend, hlength, Reading.bind_of_ok hread, if_neg (not_not_intro hsize)]
    rfl

theorem walked_of_list {s s' : S} {entries : List ZipEntry}
    (h : (list B).run s = .done (.ok entries, s')) :
    ∃ record central s₁ met last, (readDirectory B).run s = .done (.ok (record, central), s₁) ∧
      Walked B central 0 0 s₁ met last s' ∧ met.length = record.entryCount.toNat ∧
      entries = met.map Met.entry := by
  unfold list at h
  obtain ⟨⟨record, central⟩, s₁, hdirectory, hvector⟩ := Reading.bind_eq_ok.mp h
  obtain ⟨_, s₂, hcapacity, hwalk⟩ := Reading.bind_eq_ok.mp hvector
  obtain ⟨-, rfl⟩ := Reading.lift_eq_ok.mp hcapacity
  obtain ⟨met, last, hwalked, hlength, hentries⟩ := walked_of_walk hwalk
  exact ⟨record, central, s₂, met, last, hdirectory, hwalked, hlength, hentries⟩

end Source

end ImgTools.Zip
