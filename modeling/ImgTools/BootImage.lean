import ImgTools.BootHeaderExact
import ImgTools.BootPlacing

/-!
# Boot images are taken apart

A boot image of the format, of any version: the header on whole pages, the parts
that the header declares, each filled up to a page, and behind them the bootconfig
and the signature, or whatever stands behind an image of an older version.
`bootImage_recovered` runs the parser and the layout on the bytes of an image and
cuts its parts out again.
-/

namespace ImgTools

open Exec Fallible Alignment

structure BootImageParts where
  header : BootImgHdr
  kernel : List UInt8
  ramdisk : List UInt8
  second : List UInt8
  recoveryDtbo : List UInt8
  dtb : List UInt8
  bootconfig : List UInt8
  signature : List UInt8

namespace BootImageParts

variable (image : BootImageParts)

def page : Nat := image.header.parsed.pageSize.toNat

def leading : List Part :=
  [⟨.kernel, image.page, image.kernel⟩, ⟨.ramdisk, image.page, image.ramdisk⟩,
    ⟨.second, image.page, image.second⟩]

/-- The parts that are filled up to a page. -/
def paged : List Part :=
  image.leading ++
    [⟨.recoveryDtbo, image.page, image.recoveryDtbo⟩, ⟨.dtb, image.page, image.dtb⟩]

def trailing : List Part := [⟨.bootconfig, 1, image.bootconfig⟩, ⟨.signature, 1, image.signature⟩]

def headerArea : Nat := roundUp image.header.parsed.headerSize.toNat image.page

def headerBytes : List UInt8 :=
  image.header.fields.flatten ++
    List.replicate (image.headerArea - image.header.fields.flatten.length) 0

def bytes : List UInt8 :=
  image.headerBytes ++ (Segment.write 0 image.headerArea image.paged ++
    (image.bootconfig ++ image.signature))

/-- The parts that are to be found in the image, those that are empty left out. -/
def pieces : List (BootSectionKind × List UInt8) :=
  Segment.contents image.paged ++
    if 3 ≤ image.header.parsed.headerVersion then Segment.contents image.trailing else []

end BootImageParts

/-- A boot image whose header declares its parts. -/
structure BootImage extends BootImageParts where
  pageValid : 512 ≤ toBootImageParts.page ∧ isPowerOfTwo toBootImageParts.page
  kernelSize : header.parsed.kernelSize.toNat = kernel.length
  ramdiskSize : header.parsed.ramdiskSize.toNat = ramdisk.length
  secondSize : header.parsed.secondSize.toNat = second.length
  recoveryDtboSize : header.parsed.recoveryDtboSize.toNat = recoveryDtbo.length
  /-- The header does not look for the recovery DTBO behind its place. -/
  recoveryDtboOffset : header.parsed.recoveryDtboOffset.toNat ≤
    Segment.finish toBootImageParts.headerArea toBootImageParts.leading
  dtbSize : header.parsed.dtbSize.toNat = dtb.length
  signatureSize : header.parsed.signatureSize.toNat = signature.length
  small : toBootImageParts.bytes.length < 2 ^ 64

/-! ### Headers of the format -/

namespace BootImgHdr

variable (h : BootImgHdr)

theorem parsed_modern (hversion : 3 ≤ h.parsed.headerVersion) : h.parsed.pageSize = 4096 := by
  cases h with
  | v0 h => exact absurd hversion (by decide : ¬ (3 : UInt32) ≤ 0)
  | v1 h => exact absurd hversion (by decide : ¬ (3 : UInt32) ≤ 1)
  | v2 h => exact absurd hversion (by decide : ¬ (3 : UInt32) ≤ 2)
  | v3 h => rfl
  | v4 h => rfl

/-- A section that is declared is one that the version enables. -/
theorem parsed_enabled :
    (0 < h.parsed.recoveryDtboSize → h.parsed.headerVersion ≥ 1) ∧
      (0 < h.parsed.dtbSize → h.parsed.headerVersion ≥ 2) := by
  have hzero : ¬ (0 : UInt32) < 0 := by decide
  cases h with
  | v0 h => exact ⟨fun hsize => absurd hsize hzero, fun hsize => absurd hsize hzero⟩
  | v1 h => exact ⟨fun _ => (by decide : (1 : UInt32) ≥ 1), fun hsize => absurd hsize hzero⟩
  | v2 h => exact ⟨fun _ => (by decide : (2 : UInt32) ≥ 1), fun _ => (by decide : (2 : UInt32) ≥ 2)⟩
  | v3 h => exact ⟨fun hsize => absurd hsize hzero, fun hsize => absurd hsize hzero⟩
  | v4 h => exact ⟨fun hsize => absurd hsize hzero, fun hsize => absurd hsize hzero⟩

theorem length_fields_le : h.fields.flatten.length ≤ h.parsed.headerSize.toNat := by
  have hmax : ∀ a b : UInt32, b.toNat ≤ (max a b).toNat := by
    intro a b
    show b.toNat ≤ (if a ≤ b then b else a).toNat
    split
    · exact Nat.le_refl _
    · next hle => exact Nat.le_of_lt (UInt32.lt_iff_toNat_lt.mp (UInt32.not_le.mp hle))
  cases h with
  | v0 h => exact Nat.le_of_eq (h.length_fields 0)
  | v1 h => exact Nat.le_of_eq (h.length_fields 1)
  | v2 h => exact Nat.le_of_eq (h.length_fields 2)
  | v3 h => exact (Nat.le_of_eq (h.length_fields 3)).trans (hmax h.headerSize 1580)
  | v4 h => exact (Nat.le_of_eq (h.length_fields 4)).trans (hmax h.headerSize 1584)

end BootImgHdr

/-! ### The bytes of an image -/

namespace BootImage

variable (image : BootImage)

theorem page_pos : 0 < image.page := Nat.lt_of_lt_of_le (by decide) image.pageValid.1

theorem paged_aligned : ∀ p ∈ image.paged, 0 < p.alignment := by
  have hpage := image.page_pos
  simp [BootImageParts.paged, BootImageParts.leading, hpage]

@[simp] theorem length_headerBytes : image.headerBytes.length = image.headerArea := by
  have hfields := image.header.length_fields_le
  have harea := le_roundUp image.page_pos image.header.parsed.headerSize.toNat
  simp only [BootImageParts.headerBytes, BootImageParts.headerArea, List.length_append,
    List.length_replicate]
  omega

def cursor : Nat := Segment.finish image.headerArea image.paged

theorem length_front :
    (image.headerBytes ++ Segment.write 0 image.headerArea image.paged).length =
      image.cursor := by
  rw [List.length_append, image.length_headerBytes]
  exact Segment.length_write image.paged_aligned 0 image.headerArea

theorem length_bytes :
    image.bytes.length = image.cursor + (image.bootconfig.length + image.signature.length) := by
  rw [BootImageParts.bytes, ← List.append_assoc, List.length_append, image.length_front,
    List.length_append]

/-- The filled parts stand where their lengths put them. -/
theorem holds_paged :
    Segment.Holds image.bytes (Segment.extents image.headerArea image.paged)
      (Segment.contents image.paged) := by
  have h := Segment.holds_write image.paged_aligned 0 image.headerBytes
    (image.bootconfig ++ image.signature)
  rwa [image.length_headerBytes] at h

theorem holds_trailing :
    Segment.Holds image.bytes
      ((trailer image.cursor image.bytes.length image.signature.length).map BootSection.extent)
      (Segment.contents image.trailing) := by
  have hlength := image.length_bytes
  have hfront := image.length_front
  have hbytes : image.bytes = (image.headerBytes ++ Segment.write 0 image.headerArea image.paged) ++
      (image.bootconfig ++ image.signature) := (List.append_assoc _ _ _).symm
  have hstart : image.bytes.length - image.signature.length =
      image.cursor + image.bootconfig.length := by omega
  have hbootconfig := Segment.holds_singleton BootSectionKind.bootconfig
    (image.headerBytes ++ Segment.write 0 image.headerArea image.paged) image.bootconfig
    image.signature
  have hsignature := Segment.holds_singleton BootSectionKind.signature
    ((image.headerBytes ++ Segment.write 0 image.headerArea image.paged) ++ image.bootconfig)
    image.signature []
  rw [← hbytes, hfront] at hbootconfig
  rw [List.append_nil, List.append_assoc, ← hbytes, List.length_append, hfront] at hsignature
  rw [trailer, hstart, List.map_append, BootImageParts.trailing]
  have hsize : image.cursor + image.bootconfig.length - image.cursor =
      image.bootconfig.length := Nat.add_sub_cancel_left _ _
  simp only [Nat.lt_add_right_iff_pos, hsize, Segment.contents]
  by_cases hb : 0 < image.bootconfig.length
  · rw [if_pos hb, if_pos hb]
    by_cases hs : 0 < image.signature.length
    · rw [if_pos hs, if_pos hs]
      exact hbootconfig.append hsignature
    · rw [if_neg hs, if_neg hs, List.map_nil, List.append_nil]
      exact hbootconfig
  · rw [if_neg hb, if_neg hb, List.map_nil, List.nil_append]
    by_cases hs : 0 < image.signature.length
    · rw [if_pos hs, if_pos hs]
      exact hsignature
    · rw [if_neg hs, if_neg hs]
      exact .nil

/-! ### The code on an image -/

theorem parse_bytes : parseBootHeader image.bytes = ok image.header.parsed := by
  rw [BootImageParts.bytes, BootImageParts.headerBytes, List.append_assoc]
  exact image.header.parse _

theorem blocks_eq :
    image.header.parsed.blocks image.page = image.paged.map Part.block ∧
      image.header.parsed.leadingBlocks image.page = image.leading.map Part.block := by
  simp only [BootHeader.blocks, BootHeader.leadingBlocks, BootImageParts.paged,
    BootImageParts.leading, image.kernelSize, image.ramdiskSize, image.secondSize,
    image.recoveryDtboSize, image.dtbSize]
  exact ⟨rfl, rfl⟩

variable {A : Arith}

theorem page_ok :
    (ofExcept id (if image.header.parsed.headerVersion ≥ 3 then .ok 4096
      else pageSize image.header.parsed.pageSize) : Fallible LayoutError Nat) =
      ok image.page := by
  obtain ⟨hlarge, hpower⟩ := image.pageValid
  split
  · next hversion =>
    rw [BootImageParts.page, image.header.parsed_modern hversion]
    rfl
  · have hvalid : ¬ (image.page < 512 ∨ ¬ isPowerOfTwo image.page) := by
      simp only [hpower, not_true, or_false]
      exact Nat.not_lt.mpr hlarge
    have hpage : pageSize image.header.parsed.pageSize = .ok image.page := if_neg hvalid
    rw [hpage]
    rfl

theorem headerArea_ok (hsource : image.bytes.length < 2 ^ 64) :
    alignUp image.header.parsed.headerSize.toNat image.page = .ok image.headerArea := by
  have hsize := image.header.parsed.headerSize.toNat_lt
  have harea : image.headerArea ≤ image.bytes.length := by
    rw [BootImageParts.bytes, List.length_append, image.length_headerBytes]
    exact Nat.le_add_right _ _
  rw [alignUp_eq_ok image.page_pos (by omega)]
  exact ⟨rfl, Nat.lt_of_le_of_lt harea hsource⟩

theorem placeParts_ok (hA : Words64 A) :
    ∃ front layout : Layout,
      placeFront A image.header.parsed image.page image.bytes.length ⟨image.headerArea, []⟩ =
        ok front ∧
      placeDtb A image.header.parsed image.page image.bytes.length front = ok layout ∧
      layout.cursor = image.cursor ∧
      layout.sections.map BootSection.extent = Segment.extents image.headerArea image.paged := by
  obtain ⟨hdtbo, hdtb⟩ := image.header.parsed_enabled
  obtain ⟨hblocks, hleading⟩ := image.blocks_eq
  obtain ⟨hcursor, hsections⟩ := foldl_advance ⟨image.headerArea, []⟩ image.paged
  have hrecorded : image.header.parsed.recoveryDtboOffset.toNat ≤
      ((image.header.parsed.leadingBlocks image.page).foldl Layout.advance
        ⟨image.headerArea, []⟩).cursor := by
    rw [hleading, (foldl_advance _ image.leading).1]
    exact image.recoveryDtboOffset
  have hfit : ((image.header.parsed.blocks image.page).foldl Layout.advance
      ⟨image.headerArea, []⟩).cursor ≤ image.bytes.length := by
    rw [hblocks, hcursor, image.length_bytes]
    exact Nat.le_add_right _ _
  have hrun := ImgTools.placeParts_ok hA image.small image.page_pos hdtbo hdtb hrecorded hfit
  obtain ⟨front, hfront, hlast⟩ := bind_eq_ok.mp hrun
  refine ⟨front, _, hfront, hlast, ?_, ?_⟩
  · rw [hblocks, hcursor]
    rfl
  · rw [hblocks, hsections]
    rfl

/-- The walk starts behind the header, in a file of any length. -/
theorem bootSections_eq {n : Nat} (hn : n < 2 ^ 64) :
    let header := image.header.parsed
    bootSections A header (UInt64.ofNat n) = (do
      let layout ← placeFront A header image.page n ⟨image.headerArea, []⟩
      let layout ← placeDtb A header image.page n layout
      if header.headerVersion ≥ 3 then
        let layout ← placeTrailer A header n layout
        return layout.sections
      else return layout.sections) := by
  intro header
  have hsource : (UInt64.ofNat n).toNat = n := UInt64.toNat_ofNat_of_lt' hn
  rw [bootSections, image.page_ok, ok_bind, image.headerArea_ok image.small, ofExcept_ok, ok_bind,
    hsource]

theorem sections_ok (hA : Words64 A) :
    ∃ sections,
      bootSections A image.header.parsed (UInt64.ofNat image.bytes.length) = ok sections ∧
      Segment.Holds image.bytes (sections.map BootSection.extent) image.pieces := by
  obtain ⟨front, layout, hfront, hdtb, hcursor, hsections⟩ := image.placeParts_ok hA
  have hle : image.header.parsed.signatureSize.toNat ≤ image.bytes.length := by
    rw [image.signatureSize, image.length_bytes]
    omega
  obtain ⟨final, hfinal, htrailer⟩ := placeTrailer_ok layout hA image.small hle
  rw [hcursor, image.signatureSize] at htrailer
  rw [image.bootSections_eq image.small, hfront, ok_bind, hdtb, ok_bind, BootImageParts.pieces]
  by_cases hversion : image.header.parsed.headerVersion ≥ 3
  · refine ⟨final.sections, ?_, ?_⟩
    · rw [if_pos hversion, hfinal]
      rfl
    · rw [if_pos hversion, htrailer, List.map_append, hsections]
      exact image.holds_paged.append image.holds_trailing
  · refine ⟨layout.sections, if_neg hversion, ?_⟩
    rw [if_neg hversion, List.append_nil, hsections]
    exact image.holds_paged

end BootImage

/-- **A boot image is taken apart.** For every image of the format, of any version, the
    parser reads its header back, the layout accepts it, and the sections are its parts. -/
theorem bootImage_recovered (A : Arith) (image : BootImage) (hA : Words64 A) :
    parseBootHeader image.bytes = ok image.header.parsed ∧
      ∃ sections,
        bootSections A image.header.parsed (UInt64.ofNat image.bytes.length) = ok sections ∧
        Segment.Holds image.bytes (sections.map BootSection.extent) image.pieces :=
  ⟨image.parse_bytes, image.sections_ok hA⟩

/-- A version 2 image with pages of 512 bytes and no second stage. -/
def smallImage : BootImage where
  header := .v2
    { kernelSize := 3, kernelAddr := 0, ramdiskSize := 1, ramdiskAddr := 0, secondSize := 0,
      secondAddr := 0, tagsAddr := 0, pageSize := 512, osVersion := 0,
      name := List.Vector.replicate 16 0, cmdline := List.Vector.replicate 512 0,
      id := List.Vector.replicate 32 0, extraCmdline := List.Vector.replicate 1024 0,
      recoveryDtboSize := 2, recoveryDtboOffset := 3072, headerSize := 1660, dtbSize := 1,
      dtbAddr := 0 }
  kernel := [1, 2, 3]
  ramdisk := [4]
  second := []
  recoveryDtbo := [5, 6]
  dtb := [7]
  bootconfig := []
  signature := []
  pageValid := by decide
  kernelSize := rfl
  ramdiskSize := rfl
  secondSize := rfl
  recoveryDtboSize := rfl
  recoveryDtboOffset := by decide
  dtbSize := rfl
  signatureSize := rfl
  small := by decide +kernel

/-- The image in a release build. -/
theorem bootImage_recovered_small :
    parseBootHeader smallImage.bytes = ok smallImage.header.parsed ∧
      ∃ sections, bootSections (.wrapping 64) smallImage.header.parsed
          (UInt64.ofNat smallImage.bytes.length) = ok sections ∧
        Segment.Holds smallImage.bytes (sections.map BootSection.extent)
          [(.kernel, [1, 2, 3]), (.ramdisk, [4]), (.recoveryDtbo, [5, 6]), (.dtb, [7])] :=
  bootImage_recovered (.wrapping 64) smallImage (by decide)

end ImgTools
