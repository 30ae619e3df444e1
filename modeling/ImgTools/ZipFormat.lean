import ImgTools.Zip

/-!
# The ZIP format

The records of a single-disk archive as a writer lays them out. Fields that the
reader does not use are free: they are numbers of which the record keeps the
bytes it has room for. An `Ending` is the part behind the central directory: the
end record, with its comment, and before it in an archive in ZIP64 form the
64-bit end record and its locator.
-/

namespace ImgTools.Zip.Format

open LittleEndian

/-! ### The end of an archive -/

/-- The end record. `disks` are the two disk numbers and the entry count of this disk. -/
def eocd (disks entryCount centralSize centralOffset : Nat) (comment : List UInt8) : List UInt8 :=
  encode 4 EOCD.toNat ++ (encode 6 disks ++ (encode 2 entryCount ++ (encode 4 centralSize ++
    (encode 4 centralOffset ++ (encode 2 comment.length ++ comment)))))

/-- The fixed part of the 64-bit end record, whose `versions` are its versions and disk numbers. -/
def zip64Eocd (versions extensible : Nat) (record : EndRecord) : List UInt8 :=
  encode 4 ZIP64_EOCD.toNat ++ (encode 8 (44 + extensible) ++ (encode 20 versions ++
    (encode 8 record.entryCount.toNat ++ (encode 8 record.centralSize.toNat ++
      encode 8 record.centralOffset.toNat))))

def zip64Locator (disk offset disks : Nat) : List UInt8 :=
  encode 4 ZIP64_LOCATOR.toNat ++ (encode 4 disk ++ (encode 8 offset ++ encode 4 disks))

/-- What an archive in ZIP64 form has besides its end record: the free fields of
    the 64-bit record and of the locator, and what the end record says itself. -/
structure Zip64Form where
  versions : Nat
  extensible : List UInt8
  locatorDisk : Nat
  locatorDisks : Nat
  entryCount : Nat
  centralSize : Nat
  centralOffset : Nat

/-- The end of an archive. In plain form the values are below their sentinels. -/
structure Ending where
  record : EndRecord
  zip64 : Option Zip64Form
  disks : Nat
  comment : List UInt8
  comment_le : comment.length ≤ 0xffff
  narrow : zip64 = none → record.entryCount.toNat < 0xffff ∧
    record.centralSize.toNat < 0xffffffff ∧ record.centralOffset.toNat < 0xffffffff

namespace Ending

def zip64Part (ending : Ending) (start : Nat) : List UInt8 :=
  match ending.zip64 with
  | none => []
  | some form =>
    zip64Eocd form.versions form.extensible.length ending.record ++ (form.extensible ++
      zip64Locator form.locatorDisk start form.locatorDisks)

def eocdPart (ending : Ending) : List UInt8 :=
  match ending.zip64 with
  | none => eocd ending.disks ending.record.entryCount.toNat ending.record.centralSize.toNat
      ending.record.centralOffset.toNat ending.comment
  | some form =>
    eocd ending.disks form.entryCount form.centralSize form.centralOffset ending.comment

def bytes (ending : Ending) (start : Nat) : List UInt8 :=
  ending.zip64Part start ++ ending.eocdPart

end Ending

/-- A file that ends as an archive does: `front` is everything up to the end of
    the central directory. -/
structure EndedFile where
  front : List UInt8
  ending : Ending

namespace EndedFile

def bytes (file : EndedFile) : List UInt8 := file.front ++ file.ending.bytes file.front.length

/-- Where the true end record starts: the one whose comment ends the file. -/
def eocdAt (file : EndedFile) : Nat :=
  file.front.length + (file.ending.zip64Part file.front.length).length

end EndedFile

/-! ### Fields of a concatenation -/

theorem u16le_skip {front back : List UInt8} {o : Nat} (h : front.length ≤ o) :
    u16le (front ++ back) o = u16le back (o - front.length) := by
  rw [u16le, u16le, read?_append_right h]

theorem u32le_skip {front back : List UInt8} {o : Nat} (h : front.length ≤ o) :
    u32le (front ++ back) o = u32le back (o - front.length) := by
  rw [u32le, u32le, read?_append_right h]

theorem u64le_skip {front back : List UInt8} {o : Nat} (h : front.length ≤ o) :
    u64le (front ++ back) o = u64le back (o - front.length) := by
  rw [u64le, u64le, read?_append_right h]

theorem u16le_encode (n : Nat) (rest : List UInt8) :
    u16le (encode 2 n ++ rest) 0 = .ok (UInt16.ofNat n) := by
  rw [u16le, read?_encode]
  exact congrArg Except.ok (by ext; simp)

theorem u32le_encode (n : Nat) (rest : List UInt8) :
    u32le (encode 4 n ++ rest) 0 = .ok (UInt32.ofNat n) := by
  rw [u32le, read?_encode]
  exact congrArg Except.ok (by ext; simp)

theorem u64le_encode (n : Nat) (rest : List UInt8) :
    u64le (encode 8 n ++ rest) 0 = .ok (UInt64.ofNat n) := by
  rw [u64le, read?_encode]
  exact congrArg Except.ok (by ext; simp)

theorem u16le_encode_self (n : Nat) : u16le (encode 2 n) 0 = .ok (UInt16.ofNat n) := by
  rw [← u16le_encode n [], List.append_nil]

theorem u32le_encode_self (n : Nat) : u32le (encode 4 n) 0 = .ok (UInt32.ofNat n) := by
  rw [← u32le_encode n [], List.append_nil]

theorem u64le_encode_self (n : Nat) : u64le (encode 8 n) 0 = .ok (UInt64.ofNat n) := by
  rw [← u64le_encode n [], List.append_nil]

theorem hasSignature_encode (signature : UInt32) (rest : List UInt8) :
    hasSignature (encode 4 signature.toNat ++ rest) 0 signature = true := by
  rw [hasSignature, u32le_encode, UInt32.ofNat_toNat]
  exact beq_self_eq_true _

/-! ### Reading the records back -/

theorem length_eocd (disks entryCount centralSize centralOffset : Nat) (comment : List UInt8) :
    (eocd disks entryCount centralSize centralOffset comment).length = 22 + comment.length := by
  simp only [eocd, List.length_append, length_encode]
  omega

theorem hasSignature_eocd (disks entryCount centralSize centralOffset : Nat)
    (comment : List UInt8) :
    hasSignature (eocd disks entryCount centralSize centralOffset comment) 0 EOCD = true :=
  hasSignature_encode _ _

theorem plainEnd_eocd (disks entryCount centralSize centralOffset : Nat) (comment : List UInt8) :
    plainEnd (eocd disks entryCount centralSize centralOffset comment) 0 =
      .ok ⟨(UInt16.ofNat entryCount).toUInt64, (UInt32.ofNat centralSize).toUInt64,
        (UInt32.ofNat centralOffset).toUInt64⟩ := by
  simp (disch := simp) [plainEnd, eocd, u16le_skip, u32le_skip, u16le_encode, u32le_encode]
  rfl

theorem zip64Fields_zip64Eocd (versions extensible : Nat) (record : EndRecord) :
    zip64Fields (zip64Eocd versions extensible record) = .ok record := by
  simp (disch := simp) [zip64Fields, zip64Eocd, u64le_skip, u32le_encode, u64le_encode,
    u64le_encode_self]
  rfl

theorem u64le_zip64Locator {disk offset disks : Nat} (rest : List UInt8) :
    u64le (zip64Locator disk offset disks ++ rest) 8 = .ok (UInt64.ofNat offset) := by
  simp (disch := simp) [zip64Locator, u64le_skip, u64le_encode]

theorem hasSignature_zip64Locator (disk offset disks : Nat) (rest : List UInt8) :
    hasSignature (zip64Locator disk offset disks ++ rest) 0 ZIP64_LOCATOR = true := by
  rw [zip64Locator, List.append_assoc]
  exact hasSignature_encode _ _

theorem length_zip64Eocd (versions extensible : Nat) (record : EndRecord) :
    (zip64Eocd versions extensible record).length = 56 := by
  simp [zip64Eocd]

theorem length_zip64Locator (disk offset disks : Nat) :
    (zip64Locator disk offset disks).length = 20 := by
  simp [zip64Locator]

namespace Ending

theorem length_eocdPart (ending : Ending) :
    ending.eocdPart.length = 22 + ending.comment.length := by
  unfold eocdPart
  split <;> exact length_eocd _ _ _ _ _

theorem hasSignature_eocdPart (ending : Ending) : hasSignature ending.eocdPart 0 EOCD = true := by
  unfold eocdPart
  split <;> exact hasSignature_eocd _ _ _ _ _

theorem plainEnd_eocdPart {ending : Ending} (h : ending.zip64 = none) :
    plainEnd ending.eocdPart 0 = .ok ending.record := by
  obtain ⟨hcount, hsize, hoffset⟩ := ending.narrow h
  unfold eocdPart
  rw [h]
  refine (plainEnd_eocd _ _ _ _ _).trans (congrArg Except.ok ?_)
  obtain ⟨⟨count, size, offset⟩, _⟩ := ending
  simp only at hcount hsize hoffset ⊢
  congr 1
  · exact UInt64.toNat_inj.mp (by simp; omega)
  · exact UInt64.toNat_inj.mp (by simp; omega)
  · exact UInt64.toNat_inj.mp (by simp; omega)

/-- A plain end record is not one that continues elsewhere. -/
theorem isSentinel_record {ending : Ending} (h : ending.zip64 = none) :
    isSentinel ending.record = false := by
  obtain ⟨hcount, -, hoffset⟩ := ending.narrow h
  have hcount' : ending.record.entryCount ≠ ZIP64_SENTINEL_16.toUInt64 := by
    intro heq
    rw [heq] at hcount
    exact absurd hcount (by decide)
  have hoffset' : ending.record.centralOffset ≠ ZIP64_SENTINEL.toUInt64 := by
    intro heq
    rw [heq] at hoffset
    exact absurd hoffset (by decide)
  simp [isSentinel, hcount', hoffset']

theorem plainEnd_isOk (ending : Ending) : ∃ record, plainEnd ending.eocdPart 0 = .ok record := by
  unfold eocdPart
  split <;> exact ⟨_, plainEnd_eocd _ _ _ _ _⟩

end Ending

namespace EndedFile

variable (file : EndedFile)

theorem length_bytes : file.bytes.length = file.eocdAt + 22 + file.ending.comment.length := by
  simp only [bytes, eocdAt, Ending.bytes, List.length_append, Ending.length_eocdPart]
  omega

theorem drop_eocdAt : file.bytes.drop file.eocdAt = file.ending.eocdPart := by
  rw [bytes, eocdAt, Ending.bytes, ← List.append_assoc, ← List.length_append, List.drop_left]

/-- In ZIP64 form the locator stands right before the end record. -/
theorem drop_locator {form : Zip64Form} (h : file.ending.zip64 = some form) :
    20 ≤ file.eocdAt ∧ file.bytes.drop (file.eocdAt - 20) =
      zip64Locator form.locatorDisk file.front.length form.locatorDisks ++
        file.ending.eocdPart := by
  have hpart : file.ending.zip64Part file.front.length =
      zip64Eocd form.versions form.extensible.length file.ending.record ++ (form.extensible ++
        zip64Locator form.locatorDisk file.front.length form.locatorDisks) := by
    rw [Ending.zip64Part, h]
  have hat : file.eocdAt - 20 = (file.front ++ (zip64Eocd form.versions form.extensible.length
      file.ending.record ++ form.extensible)).length := by
    rw [eocdAt, hpart]
    simp only [List.length_append, length_zip64Eocd, length_zip64Locator]
    omega
  constructor
  · rw [eocdAt, hpart]
    simp only [List.length_append, length_zip64Eocd, length_zip64Locator]
    omega
  · rw [hat, bytes, Ending.bytes, hpart]
    simp only [← List.append_assoc]
    rw [List.append_assoc _ _ file.ending.eocdPart, List.drop_left]

/-- In ZIP64 form the 64-bit record stands where the ending starts. -/
theorem take_record64 {form : Zip64Form} (h : file.ending.zip64 = some form) :
    (file.bytes.drop file.front.length).take 56 =
      zip64Eocd form.versions form.extensible.length file.ending.record := by
  rw [bytes, List.drop_left, Ending.bytes, Ending.zip64Part, h, List.append_assoc]
  exact List.take_left' (length_zip64Eocd _ _ _)

end EndedFile

end ImgTools.Zip.Format
