import ImgTools.ZipExtra
import ImgTools.ZipEnd

/-!
# Archives

A single-disk archive, from the list of its entries: the local parts one after
the other, with gaps where the writer leaves them, the central directory, which
has one record for every entry in the same order, and the ending.
-/

namespace ImgTools.Zip.Format

open LittleEndian

/-! ### Entries -/

/-- An entry as a writer is given it. `versions`, `times`, `attributes` and
    `localFields` are fields that the reader does not use, `gap` is what the
    writer leaves before the local header. -/
structure Entry where
  name : String
  method : UInt16
  crc32 : UInt32
  data : List UInt8
  uncompressedSize : UInt64
  wide : Wide
  extra : Extra
  comment : List UInt8
  versions : Nat
  times : Nat
  attributes : Nat
  gap : List UInt8
  localFields : Nat
  localName : List UInt8
  localExtra : List UInt8

namespace Entry

def values (entry : Entry) (offset : Nat) : Values :=
  ⟨entry.uncompressedSize, UInt64.ofNat entry.data.length, UInt64.ofNat offset⟩

def extraPart (entry : Entry) (offset : Nat) : List UInt8 :=
  entry.extra.bytes entry.wide (entry.values offset)

def centralHead (entry : Entry) (offset : Nat) : List UInt8 :=
  encode 4 CENTRAL_HEADER.toNat ++ (encode 6 entry.versions ++ (encode 2 entry.method.toNat ++
    (encode 4 entry.times ++ (encode 4 entry.crc32.toNat ++
    (encode 4 (stored entry.wide.compressed (entry.values offset).compressed).toNat ++
    (encode 4 (stored entry.wide.uncompressed (entry.values offset).uncompressed).toNat ++
    (encode 2 (Utf8.encode entry.name).length ++ (encode 2 (entry.extraPart offset).length ++
    (encode 2 entry.comment.length ++ (encode 8 entry.attributes ++
    encode 4 (stored entry.wide.localOffset (entry.values offset).localOffset).toNat))))))))))

def central (entry : Entry) (offset : Nat) : List UInt8 :=
  entry.centralHead offset ++
    (Utf8.encode entry.name ++ (entry.extraPart offset ++ entry.comment))

def localHead (entry : Entry) : List UInt8 :=
  encode 4 LOCAL_HEADER.toNat ++ (encode 22 entry.localFields ++
    (encode 2 entry.localName.length ++ encode 2 entry.localExtra.length))

def localPart (entry : Entry) : List UInt8 :=
  entry.localHead ++ (entry.localName ++ (entry.localExtra ++ entry.data))

def dataAt (entry : Entry) (offset : Nat) : Nat :=
  offset + 30 + (entry.localName.length + entry.localExtra.length)

def listed (entry : Entry) (offset : Nat) : ZipEntry :=
  ⟨entry.name, entry.method, entry.crc32, UInt64.ofNat entry.data.length, entry.uncompressedSize,
    UInt64.ofNat (entry.dataAt offset)⟩

/-- Every length has its field, and a value that is not stored wide is below the sentinel. -/
structure Fits (entry : Entry) (offset : Nat) : Prop where
  name_lt : (Utf8.encode entry.name).length < 2 ^ 16
  extra_lt : (entry.extraPart offset).length < 2 ^ 16
  comment_lt : entry.comment.length < 2 ^ 16
  localName_lt : entry.localName.length < 2 ^ 16
  localExtra_lt : entry.localExtra.length < 2 ^ 16
  storable : StorableValues entry.wide (entry.values offset)

theorem length_centralHead (entry : Entry) (offset : Nat) :
    (entry.centralHead offset).length = 46 := by
  simp [centralHead]

theorem length_localHead (entry : Entry) : entry.localHead.length = 30 := by
  simp [localHead]

theorem length_localPart (entry : Entry) : entry.localPart.length =
    30 + (entry.localName.length + (entry.localExtra.length + entry.data.length)) := by
  simp only [localPart, List.length_append, length_localHead]

end Entry

/-! ### The layout -/

/-- The entries with the positions of their local headers, the first gap being at `start`. -/
def placed : Nat → List Entry → List (Nat × Entry)
  | _, [] => []
  | start, entry :: entries =>
    (start + entry.gap.length, entry) ::
      placed (start + entry.gap.length + entry.localPart.length) entries

def locals (entries : List Entry) : List UInt8 :=
  entries.flatMap fun entry => entry.gap ++ entry.localPart

def directory (entries : List (Nat × Entry)) : List UInt8 :=
  entries.flatMap fun (offset, entry) => entry.central offset

theorem length_placed (start : Nat) (entries : List Entry) :
    (placed start entries).length = entries.length := by
  induction entries generalizing start with
  | nil => rfl
  | cons entry entries ih => rw [placed, List.length_cons, ih, List.length_cons]

theorem localPart_isPrefix (front : List UInt8) {entries : List Entry} (back : List UInt8)
    {offset : Nat} {entry : Entry} (h : (offset, entry) ∈ placed front.length entries) :
    entry.localPart <+: (front ++ (locals entries ++ back)).drop offset := by
  induction entries generalizing front with
  | nil => cases h
  | cons first entries ih =>
    have hsplit : front ++ (locals (first :: entries) ++ back) =
        (front ++ first.gap ++ first.localPart) ++ (locals entries ++ back) := by
      simp only [locals, List.flatMap_cons, List.append_assoc]
    rw [placed] at h
    rcases List.mem_cons.mp h with hfirst | hrest
    · obtain ⟨rfl, rfl⟩ := Prod.mk.inj hfirst
      rw [hsplit, ← List.length_append, List.append_assoc, List.drop_left]
      exact List.prefix_append _ _
    · rw [hsplit]
      refine ih _ ?_
      simpa only [List.length_append, Nat.add_assoc] using hrest

/-- An archive: the entries fit their records, and the end record counts and
    measures the central directory. -/
structure Archive where
  entries : List Entry
  gap : List UInt8
  ending : Ending
  fits : ∀ p ∈ placed 0 entries, p.2.Fits p.1
  count_eq : ending.record.entryCount.toNat = entries.length
  size_eq : ending.record.centralSize.toNat = (directory (placed 0 entries)).length
  offset_eq : ending.record.centralOffset.toNat = (locals entries ++ gap).length

namespace Archive

def file (archive : Archive) : EndedFile :=
  ⟨locals archive.entries ++ archive.gap ++ directory (placed 0 archive.entries),
    archive.ending⟩

def bytes (archive : Archive) : List UInt8 := archive.file.bytes

def listing (archive : Archive) : List ZipEntry :=
  (placed 0 archive.entries).map fun (offset, entry) => entry.listed offset

/-- The directory and the listing of the archive can be allocated. -/
structure FitsMemory (archive : Archive) (B : Build) : Prop where
  directory_lt : (directory (placed 0 archive.entries)).length < 2 ^ B.usizeBits
  entries_le : archive.entries.length * entrySize B ≤ B.isizeMax

theorem bytes_eq (archive : Archive) : archive.bytes =
    locals archive.entries ++ archive.gap ++ (directory (placed 0 archive.entries) ++
      archive.ending.bytes archive.file.front.length) := by
  simp only [bytes, EndedFile.bytes, file, List.append_assoc]

theorem localPart_isPrefix (archive : Archive) {p : Nat × Entry}
    (hp : p ∈ placed 0 archive.entries) : p.2.localPart <+: archive.bytes.drop p.1 := by
  have h := Format.localPart_isPrefix [] (archive.gap ++
    (directory (placed 0 archive.entries) ++ archive.ending.bytes archive.file.front.length)) hp
  rwa [bytes_eq, List.append_assoc]

/-- The directory stands where the end record says. -/
theorem directory_at (archive : Archive) :
    (archive.bytes.drop archive.ending.record.centralOffset.toNat).take
        archive.ending.record.centralSize.toNat = directory (placed 0 archive.entries) := by
  rw [archive.offset_eq, archive.size_eq, bytes_eq, List.drop_left, List.take_left]

theorem data_at (archive : Archive) {offset : Nat} {entry : Entry}
    (hp : (offset, entry) ∈ placed 0 archive.entries) :
    (archive.bytes.drop (entry.dataAt offset)).take entry.data.length = entry.data := by
  obtain ⟨rest, hrest⟩ := archive.localPart_isPrefix hp
  have hat : entry.dataAt offset =
      offset + (entry.localHead ++ (entry.localName ++ entry.localExtra)).length := by
    simp only [Entry.dataAt, List.length_append, entry.length_localHead]
    omega
  rw [hat, ← List.drop_drop, ← hrest, Entry.localPart]
  simp only [← List.append_assoc]
  rw [List.append_assoc _ entry.data rest, List.drop_left, List.take_left]

theorem dataAt_le (archive : Archive) {offset : Nat} {entry : Entry}
    (hp : (offset, entry) ∈ placed 0 archive.entries) :
    entry.dataAt offset + entry.data.length ≤ archive.bytes.length := by
  have hbound := (archive.localPart_isPrefix hp).length_le
  simp only [entry.length_localPart, List.length_drop] at hbound
  rw [Entry.dataAt]
  omega

end Archive

/-- Every entry takes up more room than its place in the vector. -/
theorem length_placed_le (start : Nat) (entries : List Entry) :
    76 * entries.length ≤ (locals entries).length + (directory (placed start entries)).length := by
  induction entries generalizing start with
  | nil => exact Nat.zero_le _
  | cons entry entries ih =>
    have hrest := ih (start + entry.gap.length + entry.localPart.length)
    have hlocal := entry.length_localPart
    have hhead := entry.length_centralHead (start + entry.gap.length)
    simp only [locals, directory, placed, List.flatMap_cons, List.length_append, Entry.central,
      List.length_cons] at hrest ⊢
    omega

/-- An archive that is no larger than an allocation can be listed in memory. -/
theorem Archive.fitsMemory_of_length_le (archive : Archive) {B : Build}
    (h : archive.bytes.length ≤ B.isizeMax) : archive.FitsMemory B := by
  have hbytes := congrArg List.length archive.bytes_eq
  have hroom := length_placed_le 0 archive.entries
  have hmax := B.isizeMax_lt
  have hentry : entrySize B ≤ 76 := by obtain ⟨_ | _, _ | _⟩ := B <;> decide
  have hcapacity := Nat.mul_le_mul_left archive.entries.length hentry
  simp only [List.length_append] at hbytes
  exact ⟨by omega, by omega⟩

end ImgTools.Zip.Format
