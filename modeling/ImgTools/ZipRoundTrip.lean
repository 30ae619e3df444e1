import ImgTools.Related
import ImgTools.Zip64Decode
import ImgTools.ZipArchive

/-!
# Listing an archive

The reader is the inverse of the writer: each central record is read back with
the values of its entry, the local header behind it leads to the data, and the
walk over the directory lists the entries in order.
-/

namespace ImgTools.Zip

open Exec Format LittleEndian

/-! ### One central record -/

section Head

variable (entry : Entry) (offset : Nat)

def recordFields : CentralFields :=
  ⟨entry.method, entry.crc32, stored entry.wide.compressed (entry.values offset).compressed,
    stored entry.wide.uncompressed (entry.values offset).uncompressed,
    UInt16.ofNat (Utf8.encode entry.name).length, UInt16.ofNat (entry.extraPart offset).length,
    UInt16.ofNat entry.comment.length,
    stored entry.wide.localOffset (entry.values offset).localOffset⟩

theorem method_centralHead : u16le (entry.centralHead offset) 10 = .ok entry.method := by
  simp (disch := simp) [Entry.centralHead, u16le_skip, u16le_encode]

theorem crc32_centralHead : u32le (entry.centralHead offset) 16 = .ok entry.crc32 := by
  simp (disch := simp) [Entry.centralHead, u32le_skip, u32le_encode]

theorem compressed_centralHead : u32le (entry.centralHead offset) 20 =
    .ok (recordFields entry offset).compressed := by
  simp (disch := simp) [Entry.centralHead, u32le_skip, u32le_encode, recordFields]

theorem uncompressed_centralHead : u32le (entry.centralHead offset) 24 =
    .ok (recordFields entry offset).uncompressed := by
  simp (disch := simp) [Entry.centralHead, u32le_skip, u32le_encode, recordFields]

theorem nameLen_centralHead : u16le (entry.centralHead offset) 28 =
    .ok (recordFields entry offset).nameLen := by
  simp (disch := simp) [Entry.centralHead, u16le_skip, u16le_encode, recordFields]

theorem extraLen_centralHead : u16le (entry.centralHead offset) 30 =
    .ok (recordFields entry offset).extraLen := by
  simp (disch := simp) [Entry.centralHead, u16le_skip, u16le_encode, recordFields]

theorem commentLen_centralHead : u16le (entry.centralHead offset) 32 =
    .ok (recordFields entry offset).commentLen := by
  simp (disch := simp) [Entry.centralHead, u16le_skip, u16le_encode, recordFields]

theorem localOffset_centralHead : u32le (entry.centralHead offset) 42 =
    .ok (recordFields entry offset).localOffset := by
  simp (disch := simp) [Entry.centralHead, u32le_skip, u32le_encode_self, recordFields]

def recordSpans (start : Nat) : Spans :=
  ⟨start + 46, start + 46 + (Utf8.encode entry.name).length,
    start + 46 + (Utf8.encode entry.name).length + (entry.extraPart offset).length,
    start + 46 + (Utf8.encode entry.name).length + (entry.extraPart offset).length +
      entry.comment.length⟩

theorem recordSpans_next (front : List UInt8) :
    (recordSpans entry offset front.length).next = (front ++ entry.central offset).length := by
  simp only [recordSpans, Entry.central, List.length_append, entry.length_centralHead]
  omega

end Head

section Record

variable {B : Build} {entry : Entry} {offset : Nat} {front back central : List UInt8}
  (hcentral : central = front ++ (entry.central offset ++ back))
  (hfits : central.length < 2 ^ B.usizeBits)

include hcentral

theorem cursor_le : front.length + 46 ≤ central.length := by
  have hhead := entry.length_centralHead offset
  simp only [hcentral, Entry.central, List.length_append]
  omega

theorem u16le_central (k : Nat) (h : k + 2 ≤ 46) :
    u16le central (front.length + k) = u16le (entry.centralHead offset) k := by
  have hhead := entry.length_centralHead offset
  rw [hcentral, u16le_skip (by omega), Nat.add_sub_cancel_left, Entry.central, List.append_assoc,
    u16le, u16le, read?_append_left (by omega)]

theorem u32le_central (k : Nat) (h : k + 4 ≤ 46) :
    u32le central (front.length + k) = u32le (entry.centralHead offset) k := by
  have hhead := entry.length_centralHead offset
  rw [hcentral, u32le_skip (by omega), Nat.add_sub_cancel_left, Entry.central, List.append_assoc,
    u32le, u32le, read?_append_left (by omega)]

theorem isDamaged_central (hfits : central.length < 2 ^ B.usizeBits) :
    isDamaged B central front.length = false := by
  have hcursor := cursor_le hcentral
  have hsignature : hasSignature central front.length CENTRAL_HEADER = true := by
    rw [hasSignature, ← Nat.add_zero front.length, u32le_central hcentral 0 (by decide)]
    exact hasSignature_encode _ _
  rw [isDamaged, checkedAdd, if_pos (by omega), hsignature]
  simpa using hcursor

theorem u16At_central (hfits : central.length < 2 ^ B.usizeBits) {k : Nat} {v : UInt16}
    (hk : k + 2 ≤ 46) (h : u16le (entry.centralHead offset) k = .ok v) :
    u16At B central front.length k = Fallible.ok v := by
  have hcursor := Nat.lt_of_le_of_lt (cursor_le hcentral) hfits
  rw [u16At_eq hcursor (by omega), u16le_central hcentral k hk, h]
  rfl

theorem u32At_central (hfits : central.length < 2 ^ B.usizeBits) {k : Nat} {v : UInt32}
    (hk : k + 4 ≤ 46) (h : u32le (entry.centralHead offset) k = .ok v) :
    u32At B central front.length k = Fallible.ok v := by
  have hcursor := Nat.lt_of_le_of_lt (cursor_le hcentral) hfits
  rw [u32At_eq hcursor (by omega), u32le_central hcentral k hk, h]
  rfl

theorem centralFields_central (hfits : central.length < 2 ^ B.usizeBits) :
    centralFields B central front.length = Fallible.ok (recordFields entry offset) := by
  unfold centralFields
  rw [u16At_central hcentral hfits (by decide) (method_centralHead entry offset),
    u32At_central hcentral hfits (by decide) (crc32_centralHead entry offset),
    u32At_central hcentral hfits (by decide) (compressed_centralHead entry offset),
    u32At_central hcentral hfits (by decide) (uncompressed_centralHead entry offset),
    u16At_central hcentral hfits (by decide) (nameLen_centralHead entry offset),
    u16At_central hcentral hfits (by decide) (extraLen_centralHead entry offset),
    u16At_central hcentral hfits (by decide) (commentLen_centralHead entry offset),
    u32At_central hcentral hfits (by decide) (localOffset_centralHead entry offset)]
  rfl

theorem recordSpans_le : (recordSpans entry offset front.length).next ≤ central.length := by
  rw [recordSpans_next, hcentral, ← List.append_assoc]
  exact (List.prefix_append _ back).length_le

theorem spans_central (hfits : central.length < 2 ^ B.usizeBits) (hentry : entry.Fits offset) :
    spans B (recordFields entry offset) front.length =
      Fallible.ok (recordSpans entry offset front.length) := by
  have hname : (recordFields entry offset).nameLen.toNat = (Utf8.encode entry.name).length :=
    UInt16.toNat_ofNat_of_lt' hentry.name_lt
  have hextra : (recordFields entry offset).extraLen.toNat = (entry.extraPart offset).length :=
    UInt16.toNat_ofNat_of_lt' hentry.extra_lt
  have hcomment : (recordFields entry offset).commentLen.toNat = entry.comment.length :=
    UInt16.toNat_ofNat_of_lt' hentry.comment_lt
  have hnext := recordSpans_le hcentral
  simp only [recordSpans] at hnext
  have hnameEnd : advance B (front.length + 46) (Utf8.encode entry.name).length
      "name overflow" = .ok _ := advance_eq_ok.mpr ⟨by omega, rfl⟩
  have hextraEnd : advance B (front.length + 46 + (Utf8.encode entry.name).length)
      (entry.extraPart offset).length "extra overflow" = .ok _ :=
    advance_eq_ok.mpr ⟨by omega, rfl⟩
  have hrecordEnd : advance B (front.length + 46 + (Utf8.encode entry.name).length +
      (entry.extraPart offset).length) entry.comment.length "comment overflow" = .ok _ :=
    advance_eq_ok.mpr ⟨by omega, rfl⟩
  rw [spans, cursor_add (Nat.lt_of_le_of_lt (cursor_le hcentral) hfits) (Nat.le_refl 46),
    Fallible.lift_done, Fallible.ok_bind, hname, hextra, hcomment, hnameEnd]
  show (liftM (advance B _ _ "extra overflow") >>= _ : Fallible ZipError Spans) = _
  rw [hextraEnd]
  show (liftM (advance B _ _ "comment overflow") >>= _ : Fallible ZipError Spans) = _
  rw [hrecordEnd]
  rfl

theorem slice_name_central :
    slice central (recordSpans entry offset front.length).nameStart
      (recordSpans entry offset front.length).nameEnd = .done (Utf8.encode entry.name) := by
  have hslice := slice_append (front ++ entry.centralHead offset) (Utf8.encode entry.name)
    (entry.extraPart offset ++ (entry.comment ++ back))
  rw [List.length_append, entry.length_centralHead] at hslice
  rw [recordSpans, ← hslice, hcentral]
  simp only [Entry.central, List.append_assoc]

theorem slice_extra_central :
    slice central (recordSpans entry offset front.length).nameEnd
      (recordSpans entry offset front.length).extraEnd = .done (entry.extraPart offset) := by
  have hslice := slice_append (front ++ entry.centralHead offset ++ Utf8.encode entry.name)
    (entry.extraPart offset) (entry.comment ++ back)
  rw [List.length_append, List.length_append, entry.length_centralHead] at hslice
  rw [recordSpans, ← hslice, hcentral]
  simp only [Entry.central, List.append_assoc]

/-- **One record is read back**, and the cursor moves to the next one. -/
theorem centralRecord_central (hfits : central.length < 2 ^ B.usizeBits)
    (hentry : entry.Fits offset) (index : Nat) :
    centralRecord B central index front.length = Fallible.ok
      ⟨entry.name, entry.method, entry.crc32, entry.values offset,
        (front ++ entry.central offset).length⟩ := by
  have hwhole : Fallible.failIf (isDamaged B central front.length = true)
      (ZipError.damaged s!"central directory entry {index + 1} is damaged") = Fallible.ok () :=
    Fallible.failIf_eq_ok.mpr (by rw [isDamaged_central hcentral hfits]; exact Bool.false_ne_true)
  have hroom : Fallible.failIf (central.length < (recordSpans entry offset front.length).next)
      ZipError.truncated = Fallible.ok () :=
    Fallible.failIf_eq_ok.mpr (Nat.not_lt.mpr (recordSpans_le hcentral))
  have hvalues : zip64Values (entry.extraPart offset)
      (storedValues entry.wide (entry.values offset)) = Fallible.ok (entry.values offset) :=
    zip64Values_bytes hentry.storable entry.extra hentry.extra_lt
  unfold centralRecord
  rw [hwhole, Fallible.ok_bind, centralFields_central hcentral hfits, Fallible.ok_bind,
    spans_central hcentral hfits hentry, Fallible.ok_bind, hroom, Fallible.ok_bind,
    slice_name_central hcentral, Fallible.lift_done, Fallible.ok_bind,
    slice_extra_central hcentral, Fallible.lift_done, Fallible.ok_bind]
  show (zip64Values (entry.extraPart offset) (storedValues entry.wide (entry.values offset)) >>=
    _) = _
  rw [hvalues, Fallible.ok_bind, Utf8.fromUtf8Lossy_encode, recordSpans_next]
  rfl

end Record

/-! ### The local header -/

theorem add_ofNat {a b : Nat} (h : a + b < 2 ^ 64) :
    add (UInt64.ofNat a) (UInt64.ofNat b) = .ok (UInt64.ofNat (a + b)) := by
  have ha : (UInt64.ofNat a).toNat = a := UInt64.toNat_ofNat_of_lt' (show a < 2 ^ 64 by omega)
  have hb : (UInt64.ofNat b).toNat = b := UInt64.toNat_ofNat_of_lt' (show b < 2 ^ 64 by omega)
  rw [add, ha, hb, checkedAdd, if_pos h]

theorem toUInt64_ofNat {n : Nat} (h : n < 2 ^ 16) :
    (UInt16.ofNat n).toUInt64 = UInt64.ofNat n :=
  UInt64.toNat_inj.mp (by simp; omega)

/-- What is made of a local header that was read. -/
def localStart (name : String) (localOffset : UInt64) (header : List UInt8) :
    Except ZipError UInt64 :=
  if header.length < 30 ∨ hasSignature header 0 LOCAL_HEADER = false then
    .error (.damaged s!"local header for {name} is invalid")
  else do
    let localNameLen ← u16le header 26
    let localExtraLen ← u16le header 28
    let start ← add localOffset 30
    let lengths ← add localNameLen.toUInt64 localExtraLen.toUInt64
    add start lengths

theorem dataOffset_eq {S : Type} [ByteSource S] (name : String) (localOffset : UInt64) :
    dataOffset (S := S) name localOffset =
      readSource localOffset 30 >>= fun header => liftM (localStart name localOffset header) := by
  unfold dataOffset
  congr 1
  funext header
  unfold localStart
  split
  · rfl
  · simp only [Reading.lift_except_bind]

section Local

variable {content : List UInt8} (hlen : content.length < 2 ^ 64) {entry : Entry} {offset : Nat}
  (hlocal : entry.localPart <+: content.drop offset)

include hlen hlocal

theorem take_localHead : (UInt64.ofNat offset).toNat = offset ∧ offset ≤ content.length ∧
    (content.drop offset).take 30 = entry.localHead := by
  have hbound := hlocal.length_le
  rw [entry.length_localPart, List.length_drop] at hbound
  refine ⟨UInt64.toNat_ofNat_of_lt' (show offset < 2 ^ 64 by omega), by omega, ?_⟩
  obtain ⟨rest, hrest⟩ := hlocal
  rw [← hrest, Entry.localPart, List.append_assoc]
  exact List.take_left' entry.length_localHead

/-- **The local header leads to the data**, whatever name and extra field it has itself. -/
theorem localStart_localHead (hentry : entry.Fits offset) (name : String) :
    localStart name (UInt64.ofNat offset) entry.localHead =
      .ok (UInt64.ofNat (entry.dataAt offset)) := by
  have hhead := entry.length_localHead
  have hbound := hlocal.length_le
  rw [entry.length_localPart, List.length_drop] at hbound
  have hsignature : hasSignature entry.localHead 0 LOCAL_HEADER = true := hasSignature_encode _ _
  have hname : u16le entry.localHead 26 = .ok (UInt16.ofNat entry.localName.length) := by
    simp (disch := simp) [Entry.localHead, u16le_skip, u16le_encode]
  have hextra : u16le entry.localHead 28 = .ok (UInt16.ofNat entry.localExtra.length) := by
    simp (disch := simp) [Entry.localHead, u16le_skip, u16le_encode_self]
  have hstart : add (UInt64.ofNat offset) 30 = .ok (UInt64.ofNat (offset + 30)) :=
    add_ofNat (b := 30) (by omega)
  have hlengths : add (UInt16.ofNat entry.localName.length).toUInt64
      (UInt16.ofNat entry.localExtra.length).toUInt64 =
        .ok (UInt64.ofNat (entry.localName.length + entry.localExtra.length)) := by
    rw [toUInt64_ofNat hentry.localName_lt, toUInt64_ofNat hentry.localExtra_lt]
    exact add_ofNat (by omega)
  unfold localStart
  rw [if_neg (by rw [hhead, hsignature]; simp), hname, hextra, hstart]
  show add _ _ >>= _ = _
  rw [hlengths]
  exact add_ofNat (by omega)

end Local

section Source

variable {S : Type} [ByteSource S] {content : List UInt8} {P : S → Prop}

theorem dataOffset_returns (hholds : Holds content P) (hlen : content.length < 2 ^ 64)
    {entry : Entry} {offset : Nat} (hlocal : entry.localPart <+: content.drop offset)
    (hentry : entry.Fits offset) (name : String) :
    Reading.Returns P (dataOffset (S := S) name (UInt64.ofNat offset))
      (.ok (UInt64.ofNat (entry.dataAt offset))) := by
  obtain ⟨hoffset, hle, htake⟩ := take_localHead hlen hlocal
  have hread := readSource_returns hholds (UInt64.ofNat offset) 30 (hoffset.trans_le hle)
  rw [hoffset, htake] at hread
  rw [dataOffset_eq]
  refine Reading.Returns.bind hread ?_
  rw [localStart_localHead hlen hlocal hentry]
  exact Reading.Returns.except _

/-! ### The walk -/

/-- **The walk lists the entries.** The central records stand one after the other
    from the cursor on, and each refers to a local part of the file. -/
theorem walk_returns {B : Build} (hholds : Holds content P) (hlen : content.length < 2 ^ 64)
    (entries : List (Nat × Entry))
    (hentries : ∀ p ∈ entries, p.2.Fits p.1 ∧ p.2.localPart <+: content.drop p.1)
    (central front back : List UInt8) (hcentral : central = front ++ (directory entries ++ back))
    (hfits : central.length < 2 ^ B.usizeBits) (index : Nat) :
    Reading.Returns P (walk (S := S) B central entries.length index front.length)
      (.ok (entries.map fun (offset, entry) => entry.listed offset)) := by
  induction entries generalizing front index with
  | nil => exact Reading.Returns.pure _
  | cons first entries ih =>
    obtain ⟨offset, entry⟩ := first
    obtain ⟨hentry, hlocal⟩ := hentries (offset, entry) List.mem_cons_self
    have hsplit : central = front ++ (entry.central offset ++ (directory entries ++ back)) := by
      rw [hcentral]
      simp only [directory, List.flatMap_cons, List.append_assoc]
    have hrest := ih (fun p hp => hentries p (List.mem_cons_of_mem _ hp))
      (front ++ entry.central offset) (by rw [hsplit, List.append_assoc]) (index + 1)
    rw [List.length_cons, walk]
    refine Reading.Returns.bind (Reading.Returns.lift
      (centralRecord_central hsplit hfits hentry index)) ?_
    refine Reading.Returns.bind (dataOffset_returns hholds hlen hlocal hentry entry.name) ?_
    refine Reading.Returns.bind hrest ?_
    exact Reading.Returns.pure _

/-! ### The listing -/

theorem requestedCapacity_le (B : Build) (record : EndRecord) :
    requestedCapacity B record ≤ record.entryCount.toNat := by
  unfold requestedCapacity Build.usizeFrom
  split
  · exact Nat.le_refl _
  · exact Nat.zero_le _

section Archive

variable {B : Build} (archive : Archive)

theorem usizeFrom_centralSize (hmemory : archive.FitsMemory B) :
    B.usizeFrom archive.ending.record.centralSize =
      some archive.ending.record.centralSize.toNat :=
  if_pos (by rw [archive.size_eq]; exact hmemory.directory_lt)

theorem ofNat_length_directory : UInt64.ofNat (directory (placed 0 archive.entries)).length =
    archive.ending.record.centralSize := by
  rw [← archive.size_eq, UInt64.ofNat_toNat]

theorem withCapacity_archive (hmemory : archive.FitsMemory B) :
    withCapacity B (requestedCapacity B archive.ending.record) = .done () := by
  have hle := requestedCapacity_le B archive.ending.record
  rw [archive.count_eq] at hle
  exact if_pos ((Nat.mul_le_mul_right _ hle).trans hmemory.entries_le)

variable (hholds : Holds content P) (hfront : archive.file.front <+: content)
  (hend : Reading.Returns P (readEnd (S := S)) (.ok archive.ending.record))
  (hmemory : archive.FitsMemory B)

include hholds hfront hend hmemory

/-- Once the end record is read, what stands behind the central directory is of no
    importance. -/
theorem readDirectory_of_front : Reading.Returns P (readDirectory (S := S) B)
    (.ok (archive.ending.record, directory (placed 0 archive.entries))) := by
  obtain ⟨rest, rfl⟩ := hfront
  have hsplit : archive.file.front ++ rest = locals archive.entries ++ archive.gap ++
      (directory (placed 0 archive.entries) ++ rest) := List.append_assoc _ _ _
  have hoffset := archive.offset_eq
  have hbytes : (archive.file.front ++ rest).length = archive.ending.record.centralOffset.toNat +
      (directory (placed 0 archive.entries) ++ rest).length := by
    rw [hsplit, hoffset]
    exact List.length_append
  have hread := readSource_returns hholds archive.ending.record.centralOffset
    archive.ending.record.centralSize.toNat (by omega)
  have hdirectory : ((archive.file.front ++ rest).drop
      archive.ending.record.centralOffset.toNat).take archive.ending.record.centralSize.toNat =
      directory (placed 0 archive.entries) := by
    rw [hsplit, hoffset, archive.size_eq, List.drop_left, List.take_left]
  rw [hdirectory] at hread
  unfold readDirectory
  refine Reading.Returns.bind hend ?_
  simp only [usizeFrom_centralSize archive hmemory]
  refine Reading.Returns.bind hread ?_
  rw [if_neg (not_not_intro (ofNat_length_directory archive))]
  exact Reading.Returns.pure _

theorem list_of_front (hlen : content.length < 2 ^ 64) :
    Reading.Returns P (list (S := S) B) (.ok archive.listing) := by
  have hlocal : ∀ p ∈ placed 0 archive.entries, p.2.localPart <+: content.drop p.1 := by
    intro p hp
    obtain ⟨rest, rfl⟩ := hfront
    have hsplit : archive.file.front ++ rest = locals archive.entries ++ archive.gap ++
        (directory (placed 0 archive.entries) ++ rest) := List.append_assoc _ _ _
    have h := Format.localPart_isPrefix [] (archive.gap ++
      (directory (placed 0 archive.entries) ++ rest)) hp
    rwa [hsplit, List.append_assoc]
  have hwalk := walk_returns (B := B) hholds hlen (placed 0 archive.entries)
    (fun p hp => ⟨archive.fits p hp, hlocal p hp⟩)
    (directory (placed 0 archive.entries)) [] [] (List.append_nil _).symm hmemory.directory_lt 0
  unfold list
  refine Reading.Returns.bind (readDirectory_of_front archive hholds hfront hend hmemory) ?_
  refine Reading.Returns.bind (Reading.Returns.lift (x := liftM (withCapacity B _))
    (by rw [withCapacity_archive archive hmemory]; rfl)) ?_
  rw [archive.count_eq, ← length_placed 0]
  exact hwalk

end Archive

section Found

variable {B : Build} (archive : Archive) (hholds : Holds archive.bytes P) {s : S} (hs : P s)
  (hfound : archive.file.EndIsFound) (hmemory : archive.FitsMemory B)

include hholds hs hfound hmemory

theorem readDirectory_returns : Reading.Returns P (readDirectory (S := S) B)
    (.ok (archive.ending.record, directory (placed 0 archive.entries))) :=
  readDirectory_of_front archive hholds (List.prefix_append _ _)
    (archive.file.readEnd_returns hholds hs hfound) hmemory

theorem list_returns : Reading.Returns P (list (S := S) B) (.ok archive.listing) := by
  have hlen : archive.bytes.length < 2 ^ 64 := by
    rw [← hholds.size_eq s hs]
    exact (ByteSource.size s).toNat_lt
  have hfront : archive.file.front <+: archive.bytes := List.prefix_append _ _
  exact list_of_front archive hholds hfront (archive.file.readEnd_returns hholds hs hfound)
    hmemory hlen

end Found

/-- **Listing is the inverse of writing.** Over any source that holds an archive
    without an end-record signature behind its end record, and without stray
    locator bytes before it, the reader lists exactly the entries of the archive,
    in order, and the data of each stands where the listing says. -/
theorem list_archive {B : Build} (archive : Archive) (hholds : Holds archive.bytes P) {s : S}
    (hs : P s) (hlater : ¬ archive.file.LaterEocd)
    (hlocator : HasLocator archive.bytes archive.file.eocdAt → archive.ending.zip64.isSome)
    (hmemory : archive.FitsMemory B) :
    (∃ s', (list B).run s = .done (.ok archive.listing, s') ∧ P s') ∧
      ∀ p ∈ placed 0 archive.entries,
        (archive.bytes.drop (p.2.listed p.1).dataOffset.toNat).take
          (p.2.listed p.1).compressedSize.toNat = p.2.data := by
  constructor
  · have hfound : archive.file.EndIsFound := by
      refine Or.inl ⟨hlater, ?_⟩
      by_cases h : HasLocator archive.bytes archive.file.eocdAt
      · exact Or.inl (hlocator h)
      · exact Or.inr (Or.inl h)
    obtain ⟨result, s', hrun, hs', rfl⟩ := list_returns archive hholds hs hfound hmemory s hs
    exact ⟨s', hrun, hs'⟩
  · rintro ⟨offset, entry⟩ hp
    have hlen : archive.bytes.length < 2 ^ 64 := by
      rw [← hholds.size_eq s hs]
      exact (ByteSource.size s).toNat_lt
    have hle := archive.dataAt_le hp
    have hoffset : (UInt64.ofNat (entry.dataAt offset)).toNat = entry.dataAt offset :=
      UInt64.toNat_ofNat_of_lt' (show _ < 2 ^ 64 by omega)
    have hsize : (UInt64.ofNat entry.data.length).toNat = entry.data.length :=
      UInt64.toNat_ofNat_of_lt' (show _ < 2 ^ 64 by omega)
    simp only [Entry.listed, hoffset, hsize]
    exact archive.data_at hp

end Source

theorem eval_archive (B : Build) (archive : Archive) (hlen : archive.bytes.length < 2 ^ 64)
    (hfound : archive.file.EndIsFound) (hmemory : archive.FitsMemory B) :
    (list B).eval (⟨archive.bytes⟩ : ContentSource) = .done (.ok archive.listing) := by
  have hholds := ContentSource.holds ⟨archive.bytes⟩ hlen
  obtain ⟨result, s', hrun, -, rfl⟩ :=
    list_returns archive hholds rfl hfound hmemory ⟨archive.bytes⟩ rfl
  exact Reading.eval_of_run hrun

/-- An entry with its uncompressed size in a ZIP64 field behind another field. -/
def sampleEntry : Entry where
  name := "a"
  method := 8
  crc32 := 0x352441c2
  data := [75, 76, 74, 6, 0]
  uncompressedSize := 3
  wide := ⟨true, false, false⟩
  extra := ⟨[⟨0x5455, [0], by decide⟩], [], [], by decide, by decide⟩
  comment := [33]
  versions := 0
  times := 0
  attributes := 0
  gap := []
  localFields := 0
  localName := [97]
  localExtra := [1, 2]

def sampleArchive : Archive where
  entries := [sampleEntry]
  gap := []
  ending := ⟨⟨1, 65, 38⟩, none, 0, [104, 105], by decide, by decide⟩
  fits := by
    intro p hp
    obtain rfl := List.mem_singleton.mp hp
    exact ⟨by decide +kernel, by decide +kernel, by decide, by decide, by decide,
      ⟨fun _ => by decide, fun _ => by decide, fun _ => by decide⟩⟩
  count_eq := rfl
  size_eq := by decide +kernel
  offset_eq := by decide +kernel

theorem sampleArchive_notLater : ¬ sampleArchive.file.LaterEocd := by
  rintro ⟨k, hk, hroom, hsignature⟩
  have hlength : sampleArchive.file.bytes.length = 127 := by decide +kernel
  have hat : sampleArchive.file.eocdAt = 103 := by decide +kernel
  have hk' : k = 104 ∨ k = 105 := by omega
  rcases hk' with rfl | rfl
  · exact absurd hsignature (by decide +kernel)
  · exact absurd hsignature (by decide +kernel)

theorem sampleArchive_endIsFound : sampleArchive.file.EndIsFound :=
  Or.inl ⟨sampleArchive_notLater, Or.inr (Or.inl (by decide +kernel))⟩

theorem list_archive_sample :
    let source : MemorySource ⟨.bits32, .debug⟩ := ⟨sampleArchive.bytes, by decide +kernel⟩
    (∃ source', (list ⟨.bits32, .debug⟩).run source = .done (.ok sampleArchive.listing, source') ∧
      source' = source) ∧
      ∀ p ∈ placed 0 sampleArchive.entries,
        (sampleArchive.bytes.drop (p.2.listed p.1).dataOffset.toNat).take
          (p.2.listed p.1).compressedSize.toNat = p.2.data :=
  list_archive sampleArchive (MemorySource.holds ⟨sampleArchive.bytes, by decide +kernel⟩) rfl
    sampleArchive_notLater (fun h => absurd h (by decide +kernel))
    (sampleArchive.fitsMemory_of_length_le (by decide +kernel))

end ImgTools.Zip
