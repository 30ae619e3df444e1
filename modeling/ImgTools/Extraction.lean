import ImgTools.BootImage
import ImgTools.InspectPrefix
import ImgTools.VendorImage
import ImgTools.Windows
import ImgTools.ZipAbi
import ImgTools.ZipRoundTrip

/-!
# What is found through windows

Windows at the positions that a listing or a layout returns show what was written there.
`Shows` is all that is asked of a source: it answers as some bytes do. A window on such
a source is such a source again, so that an archive in an archive, to any depth, is
listed through windows as it is by itself.
-/

namespace ImgTools

open Exec

/-- The source answers as the bytes do, as far as a `usize` can ask. -/
def Shows (B : Build) {S : Type} [ByteSource S] (bytes : List UInt8) (s : S) : Prop :=
  Bisimilar (2 ^ B.usizeBits) s (⟨bytes⟩ : ContentSource)

/-! ### Windows -/

section Window

variable {B : Build} {content : List UInt8} (hcontent : content.length < 2 ^ 64)
  (offset size : UInt64) (hinside : offset.toNat + size.toNat ≤ content.length)

include hcontent hinside

/-- A window inside a byte string returns the bytes of the slice. -/
theorem ContentSource.returns_window (position : UInt64) {length : Nat}
    (hlength : length < 2 ^ B.usizeBits) :
    Reading.Returns (· = SubSource.new B (⟨content⟩ : ContentSource) offset size)
      (ByteSource.read position length)
      (.ok ((((content.drop offset.toNat).take size.toNat).drop position.toNat).take length)) := by
  intro window hwindow
  rw [hwindow]
  show ∃ _ _, (SubSource.read position length).run _ = _ ∧ _
  rw [SubSource.read_run _ position hlength]
  split
  · next hnothing =>
    refine ⟨_, _, rfl, rfl, ?_⟩
    rcases hnothing with hpast | hzero
    · have hslice : ((content.drop offset.toNat).take size.toNat).length ≤ position.toNat :=
        Nat.le_trans (List.length_take_le _ _) hpast
      rw [List.drop_eq_nil_of_le hslice, List.take_nil]
    · rw [hzero, List.take_zero]
  · next hsome =>
    have hwhole : (SubSource.new B (⟨content⟩ : ContentSource) offset size).size = size := rfl
    rw [hwhole] at hsome
    have hsum : offset.toNat + position.toNat < 2 ^ 64 := by omega
    have hadd : (B.arith 64).add offset.toNat position.toNat =
        .done (offset.toNat + position.toNat) := Arith.add_of_fits (Build.arith_fits.mpr hsum)
    have hbase : (UInt64.ofNat (offset.toNat + position.toNat)).toNat =
        offset.toNat + position.toNat := UInt64.toNat_ofNat_of_lt' hsum
    dsimp only [SubSource.new]
    rw [hadd, Outcome.done_bind, SubSource.onParent_run]
    refine ⟨_, _, rfl, rfl, ?_⟩
    rw [hbase, List.drop_take, List.drop_drop, List.take_take, SubSource.wanted]

theorem ContentSource.similar_window :
    Similar (2 ^ B.usizeBits) fun (s : SubSource B ContentSource) (t : ContentSource) =>
      s = SubSource.new B ⟨content⟩ offset size ∧
        t = ⟨(content.drop offset.toNat).take size.toNat⟩ where
  size_eq := by
    rintro s t ⟨rfl, rfl⟩
    have hlength : ((content.drop offset.toNat).take size.toNat).length = size.toNat := by
      rw [List.length_take, List.length_drop]
      omega
    show size = UInt64.ofNat ((content.drop offset.toNat).take size.toNat).length
    rw [hlength, UInt64.ofNat_toNat]
  read_alike position length hlength := by
    refine .of_returns (returns_window hcontent offset size hinside position hlength) ?_
    rintro t rfl
    exact ⟨_, _, rfl, rfl, rfl⟩

/-- **A window shows the slice.** -/
theorem Shows.window {S : Type} [ByteSource S] {s : S} (hs : Shows B content s) :
    Shows B ((content.drop offset.toNat).take size.toNat) (SubSource.new B s offset size) := by
  have hwindow := SubSource.bisimilar_onParents hs offset size
  exact hwindow.trans ⟨_, ContentSource.similar_window hcontent offset size hinside, rfl, rfl⟩

end Window

/-- A descriptor shows its file, if no call on it fails and the file could be allocated. -/
theorem shows_onFile (B : Build) (fd : Int32) {content : List UInt8}
    (hfile : content.length ≤ B.isizeMax) {schedule : List Event}
    (hschedule : Zip.Successful schedule) :
    Shows B content (Zip.onFile B fd content schedule) := by
  have hreads := Zip.reads_onFile B fd (hfile.trans B.isizeMax_le) hschedule
  exact ⟨_, Zip.similar_content (Nat.le_trans hfile (Nat.sub_le _ _))
    fun length _ => Nat.le_trans (Nat.min_le_left _ _) hfile, hreads, rfl⟩

/-! ### Archives in archives -/

namespace Zip

open Format

def ZipEntry.window (entry : ZipEntry) : Window := ⟨entry.dataOffset, entry.compressedSize⟩

/-- An archive stands inside the outermost one: each on the way is the data of an entry
    of the one before. The entries are given as they are listed, the innermost first. -/
inductive Within (outermost : Archive) : List ZipEntry → Archive → Prop where
  | self : Within outermost [] outermost
  | entry {path : List ZipEntry} {outer inner : Archive} {offset : Nat} {entry : Entry}
    (before : Within outermost path outer) (hentry : (offset, entry) ∈ placed 0 outer.entries)
    (hdata : entry.data = inner.bytes) : Within outermost (entry.listed offset :: path) inner

section Shown

variable {B : Build} {S : Type} [ByteSource S] {s : S} {archive : Archive}

theorem shows_entry (hs : Shows B archive.bytes s) (hsmall : archive.bytes.length < 2 ^ 64)
    {offset : Nat} {entry : Entry} (hentry : (offset, entry) ∈ placed 0 archive.entries) :
    Shows B entry.data (SubSource.new B s (entry.listed offset).dataOffset
      (entry.listed offset).compressedSize) := by
  have hle := archive.dataAt_le hentry
  have hoffset : (entry.listed offset).dataOffset.toNat = entry.dataAt offset :=
    UInt64.toNat_ofNat_of_lt' (show _ < 2 ^ 64 by omega)
  have hsize : (entry.listed offset).compressedSize.toNat = entry.data.length :=
    UInt64.toNat_ofNat_of_lt' (show _ < 2 ^ 64 by omega)
  have hwindow := hs.window hsmall (entry.listed offset).dataOffset
    (entry.listed offset).compressedSize (by omega)
  rwa [hoffset, hsize, archive.data_at hentry] at hwindow

theorem list_shows (hs : Shows B archive.bytes s) (hfile : archive.bytes.length ≤ B.isizeMax)
    (hfound : archive.file.EndIsFound) :
    ∃ s', (list B).run s = .done (.ok archive.listing, s') ∧ Shows B archive.bytes s' := by
  have hsmall : archive.bytes.length < 2 ^ 64 :=
    Nat.lt_of_le_of_lt (hfile.trans B.isizeMax_le) (by decide)
  obtain ⟨R, hR, hst⟩ := hs
  obtain ⟨_, t', hrun, rfl, rfl⟩ := list_returns archive (ContentSource.holds ⟨_⟩ hsmall) rfl
    hfound (archive.fitsMemory_of_length_le hfile) ⟨archive.bytes⟩ rfl
  obtain ⟨s', hrun', hst'⟩ := (list_alike B hR).run_of_run hst hrun
  exact ⟨s', hrun', R, hR, hst'⟩

theorem placed_map_snd (start : Nat) (entries : List Entry) :
    (placed start entries).map Prod.snd = entries := by
  induction entries generalizing start with
  | nil => rfl
  | cons entry entries ih => rw [placed, List.map_cons, ih]

end Shown

section Nested

variable {B : Build} {S : Type} [ByteSource S] {s : S} {outermost : Archive}

/-- The windows on the way show the archive they lead to. -/
theorem shows_within (hs : Shows B outermost.bytes s) (hsmall : outermost.bytes.length < 2 ^ 64)
    {path : List ZipEntry} {archive : Archive} (h : Within outermost path archive) :
    Shows B archive.bytes (nested B s (path.map ZipEntry.window)) ∧
      archive.bytes.length ≤ outermost.bytes.length := by
  induction h with
  | self => exact ⟨hs, Nat.le_refl _⟩
  | @entry path outer inner offset entry before hentry hdata ih =>
    obtain ⟨houter, hle⟩ := ih
    have hinside := outer.dataAt_le hentry
    rw [← hdata]
    exact ⟨shows_entry houter (by omega) hentry, by omega⟩

end Nested

/-- **Archives in archives are listed and taken apart.** Behind the windows that lead from
    an archive to one inside it, at any depth, the listing is that of the inner archive,
    and the window of each entry that is listed answers as the data of that entry. -/
theorem extracted (B : Build) {S : Type} [ByteSource S] {s : S} {outermost : Archive}
    (hs : Shows B outermost.bytes s) (hfile : outermost.bytes.length ≤ B.isizeMax)
    {path : List ZipEntry} {archive : Archive} (hwithin : Within outermost path archive)
    (hfound : archive.file.EndIsFound) :
    ∃ source, (list B).run (nested B s (path.map ZipEntry.window)) =
        .done (.ok archive.listing, source) ∧
      List.Forall₂ (fun listed entry => SameAnswers (2 ^ B.usizeBits)
        (SubSource.new B source listed.dataOffset listed.compressedSize)
        (⟨entry.data⟩ : ContentSource)) archive.listing archive.entries := by
  have hword : B.isizeMax < 2 ^ 64 := Nat.lt_of_le_of_lt B.isizeMax_le (by decide)
  obtain ⟨hshown, hle⟩ := shows_within hs (hfile.trans_lt hword) hwithin
  obtain ⟨source, hrun, hsource⟩ := list_shows hshown (hle.trans hfile) hfound
  refine ⟨source, hrun, ?_⟩
  have hentries := placed_map_snd 0 archive.entries
  generalize hplaced : placed 0 archive.entries = ps at hentries
  rw [Archive.listing, hplaced, ← hentries, List.forall₂_map_left_iff, List.forall₂_map_right_iff,
    List.forall₂_same]
  rintro ⟨offset, entry⟩ hp
  exact (shows_entry hsource (by omega) (hplaced ▸ hp)).sameAnswers

def outerEntry : Entry :=
  { sampleEntry with name := "b", method := 0, data := sampleArchive.bytes, uncompressedSize := 127 }

def outerArchive : Archive where
  entries := [outerEntry]
  gap := []
  ending := { sampleArchive.ending with record := ⟨1, 65, 160⟩, narrow := by decide }
  fits := by
    intro p hp
    obtain rfl := List.mem_singleton.mp hp
    exact ⟨by decide +kernel, by decide +kernel, by decide, by decide, by decide,
      ⟨fun _ => by decide +kernel, fun _ => by decide +kernel, fun _ => by decide +kernel⟩⟩
  count_eq := rfl
  size_eq := by decide +kernel
  offset_eq := by decide +kernel

/-- A descriptor with an interrupted call and one that is cut short. -/
theorem extracted_sample :
    let source := onFile (.wide .debug) 3 outerArchive.bytes [.interrupted, .progress 5]
    ∃ source', (list (.wide .debug)).run (nested (.wide .debug) source [⟨33, 127⟩]) =
      .done (.ok sampleArchive.listing, source') := by
  intro source
  have hfile : outerArchive.bytes.length ≤ (Build.wide .debug).isizeMax := by decide +kernel
  have hs : Shows (.wide .debug) outerArchive.bytes source :=
    shows_onFile (.wide .debug) 3 hfile (by intro message; simp)
  have hwithin : Within outerArchive [outerEntry.listed 0] sampleArchive :=
    .entry .self List.mem_cons_self rfl
  have hpath : [outerEntry.listed 0].map ZipEntry.window = [⟨33, 127⟩] := by decide +kernel
  have hextracted := extracted (.wide .debug) hs hfile hwithin sampleArchive_endIsFound
  rw [hpath] at hextracted
  obtain ⟨source', hrun, -⟩ := hextracted
  exact ⟨source', hrun⟩

end Zip

/-! ### Parts of images -/

section Sections

variable {B : Build} {S : Type} [ByteSource S] {s : S} {bytes : List UInt8}

/-- The prefix that is read of a source. -/
theorem Shows.read_prefix (hs : Shows B bytes s) :
    ∃ source, (ByteSource.read 0 65536).run s = .done (.ok (bytes.take 65536), source) ∧
      Shows B bytes source := by
  obtain ⟨R, hR, hst⟩ := hs
  have hlength : 65536 < 2 ^ B.usizeBits :=
    Nat.lt_of_lt_of_le (by decide) (Nat.pow_le_pow_right (by decide) B.usizeBits_ge)
  obtain ⟨source, hrun, hst'⟩ := (hR.read_alike 0 65536 hlength).run_of_run hst rfl
  exact ⟨source, hrun, R, hR, hst'⟩

/-- The windows at the sections answer as the pieces, in order. -/
def SectionsShow (B : Build) (s : S) (sections : List BootSection)
    (pieces : List (BootSectionKind × List UInt8)) : Prop :=
  List.Forall₂ (fun found piece => found.kind = piece.1 ∧ SameAnswers (2 ^ B.usizeBits)
    (SubSource.new B s (UInt64.ofNat found.offset) (UInt64.ofNat found.size))
    (⟨piece.2⟩ : ContentSource)) sections pieces

theorem shows_sections (hs : Shows B bytes s) (hsmall : bytes.length < 2 ^ 64)
    {sections : List BootSection} {pieces : List (BootSectionKind × List UInt8)}
    (h : Segment.Holds bytes (sections.map BootSection.extent) pieces) :
    SectionsShow B s sections pieces := by
  rw [Segment.Holds, List.forall₂_map_left_iff] at h
  refine h.imp ?_
  rintro found ⟨kind, data⟩ ⟨hkind, hslice⟩
  refine ⟨hkind, ?_⟩
  obtain ⟨-, hinside, rfl⟩ := slice_eq_done hslice
  have hfits : found.offset + found.size ≤ bytes.length := hinside
  have hoffset : (UInt64.ofNat found.offset).toNat = found.offset :=
    UInt64.toNat_ofNat_of_lt' (show _ < 2 ^ 64 by omega)
  have hsize : (UInt64.ofNat found.size).toNat = found.size :=
    UInt64.toNat_ofNat_of_lt' (show _ < 2 ^ 64 by omega)
  have hcut : (bytes.take (found.offset + found.size)).drop found.offset =
      (bytes.drop found.offset).take found.size := by
    rw [List.drop_take, Nat.add_sub_cancel_left]
  have hwindow := hs.window hsmall (UInt64.ofNat found.offset) (UInt64.ofNat found.size) (by omega)
  rw [hoffset, hsize, ← hcut] at hwindow
  exact hwindow.sameAnswers

end Sections

/-- **A boot image is taken apart over a source.** Whatever shows the image, reading its
    first bytes gives its header, and windows at the sections of the layout answer as
    the parts of the image, in order. -/
theorem bootImage_extracted (B : Build) {S : Type} [ByteSource S] {s : S} (image : BootImage)
    (hs : Shows B image.bytes s) :
    ∃ head source sections,
      (ByteSource.read 0 65536).run s = .done (.ok head, source) ∧
      parseBootHeader head = Fallible.ok image.header.parsed ∧
      bootSections (B.arith 64) image.header.parsed (ByteSource.size source) =
        Fallible.ok sections ∧
      SectionsShow B source sections image.pieces := by
  have hA : Words64 (B.arith 64) := Build.arith_fits.mpr (by decide)
  obtain ⟨source, hread, hsource⟩ := hs.read_prefix
  obtain ⟨sections, hsections, hholds⟩ := image.sections_ok hA
  have hsize : ByteSource.size source = UInt64.ofNat image.bytes.length :=
    hsource.sameAnswers.1
  refine ⟨_, source, sections, hread, ?_, hsize ▸ hsections,
    shows_sections hsource image.small hholds⟩
  rw [(parseHeaders_take image.bytes (by decide)).1]
  exact image.parse_bytes

theorem bootImage_extracted_small :
    let source := Zip.onFile (.narrow .release) 3 smallImage.bytes [.progress 700]
    ∃ source' sections, SectionsShow (.narrow .release) source' sections
        [(.kernel, [1, 2, 3]), (.ramdisk, [4]), (.recoveryDtbo, [5, 6]), (.dtb, [7])] ∧
      ∃ head, (ByteSource.read 0 65536).run source = .done (.ok head, source') := by
  intro source
  have hs : Shows (.narrow .release) smallImage.bytes source :=
    shows_onFile (.narrow .release) 3 (by decide +kernel) (by intro message; simp)
  obtain ⟨head, source', sections, hread, -, -, hshow⟩ :=
    bootImage_extracted (.narrow .release) smallImage hs
  exact ⟨source', sections, hshow, head, hread⟩

/-- **A vendor boot image is taken apart over a source**, up to its bootconfig. -/
theorem vendorImage_extracted (B : Build) {S : Type} [ByteSource S] {s : S} (image : VendorImage)
    (hs : Shows B image.bytes s) :
    let h := image.header.parsed
    ∃ head source sections,
      (ByteSource.read 0 65536).run s = .done (.ok head, source) ∧
      parseVendorBootHeader head = Fallible.ok h ∧
      vendorSections (B.arith 64) h.headerVersion h.headerSize h.pageSize h.vendorRamdiskSize
        h.dtbSize h.ramdiskTableSize h.bootconfigSize (ByteSource.size source) =
        Fallible.ok sections ∧
      SectionsShow B source (sections.filter (·.kind ≠ .bootconfig))
        (Segment.contents (image.leading image.page)) := by
  intro h
  have hA : Words64 (B.arith 64) := Build.arith_fits.mpr (by decide)
  obtain ⟨source, hread, hsource⟩ := hs.read_prefix
  obtain ⟨sections, hsections, hextents⟩ := image.sections_ok hA
  have hsize : ByteSource.size source = UInt64.ofNat image.bytes.length :=
    hsource.sameAnswers.1
  have hleading := filter_extents image.toVendorImageParts (kind_ne_of_mem_leading _ _) hextents
  refine ⟨_, source, sections, hread, ?_, hsize ▸ hsections,
    shows_sections hsource image.small (hleading ▸ image.holds_leading)⟩
  rw [(parseHeaders_take image.bytes (by decide)).2]
  exact image.parse_bytes

theorem vendorImage_extracted_small :
    let source := Zip.onFile (.narrow .release) 3 smallVendorImage.bytes [.progress 700]
    ∃ source' sections, SectionsShow (.narrow .release) source' sections
        (Segment.contents (smallVendorImage.leading smallVendorImage.page)) ∧
      ∃ head, (ByteSource.read 0 65536).run source = .done (.ok head, source') := by
  intro source
  have hs : Shows (.narrow .release) smallVendorImage.bytes source :=
    shows_onFile (.narrow .release) 3 (by decide +kernel) (by intro message; simp)
  obtain ⟨head, source', sections, hread, -, -, hshow⟩ :=
    vendorImage_extracted (.narrow .release) smallVendorImage hs
  exact ⟨source', _, hshow, head, hread⟩

end ImgTools
