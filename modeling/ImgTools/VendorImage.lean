import ImgTools.BootHeaderExact
import ImgTools.BootPlacing
import ImgTools.VendorLayout

/-!
# Vendor boot images are taken apart

A vendor boot image of the format: the header on whole pages, and behind it the
vendor ramdisk, the DTB, the ramdisk table and the bootconfig, each on pages of its
own. The code looks for the bootconfig behind the table without the bytes that fill
up the last page, so it finds the first three parts in every image, and all four
where the table leaves nothing to be filled up.
-/

namespace ImgTools

open Exec Fallible Alignment

/-- What a vendor boot image is made of; `rest` stands behind the last page. -/
structure VendorImageParts where
  header : VendorBootImgHdr
  vendorRamdisk : List UInt8
  dtb : List UInt8
  table : List UInt8
  bootconfig : List UInt8
  rest : List UInt8

namespace VendorImageParts

variable (image : VendorImageParts)

def page : Nat := image.header.parsed.pageSize.toNat

def beforeTable : List Part :=
  [⟨.vendorRamdisk, image.page, image.vendorRamdisk⟩, ⟨.vendorDtb, image.page, image.dtb⟩]

def tablePart (alignment : Nat) : Part := ⟨.vendorRamdiskTable, alignment, image.table⟩

def bootconfigPart : Part := ⟨.bootconfig, image.page, image.bootconfig⟩

def leading (alignment : Nat) : List Part := image.beforeTable ++ [image.tablePart alignment]

def parts : List Part := image.leading image.page ++ [image.bootconfigPart]

def headerArea : Nat := roundUp image.header.parsed.headerSize.toNat image.page

def headerBytes : List UInt8 :=
  image.header.fields.flatten ++
    List.replicate (image.headerArea - image.header.fields.flatten.length) 0

def bytes : List UInt8 :=
  image.headerBytes ++ (Segment.write 0 image.headerArea image.parts ++ image.rest)

def sections (A : Arith) : Fallible LayoutError (List BootSection) :=
  let h := image.header.parsed
  vendorSections A h.headerVersion h.headerSize h.pageSize h.vendorRamdiskSize h.dtbSize
    h.ramdiskTableSize h.bootconfigSize (UInt64.ofNat image.bytes.length)

end VendorImageParts

structure VendorImage extends VendorImageParts where
  pageValid : 512 ≤ toVendorImageParts.page ∧ isPowerOfTwo toVendorImageParts.page
  /-- The header size that is recorded has room for the fields. -/
  headerSize : header.fields.flatten.length ≤ header.parsed.headerSize.toNat
  vendorRamdiskSize : header.parsed.vendorRamdiskSize.toNat = vendorRamdisk.length
  dtbSize : header.parsed.dtbSize.toNat = dtb.length
  tableSize : header.parsed.ramdiskTableSize.toNat = table.length
  bootconfigSize : header.parsed.bootconfigSize.toNat = bootconfig.length
  small : toVendorImageParts.bytes.length < 2 ^ 64

/-- The length of the fields is the least header size that the layout accepts. -/
theorem VendorBootImgHdr.length_fields (h : VendorBootImgHdr) :
    h.fields.flatten.length =
      if h.parsed.headerVersion ≥ 4 then vendorHeaderV3Size + 16 else vendorHeaderV3Size := by
  cases h with
  | v3 h => exact h.length_fields 3
  | v4 h => exact h.length_fields 4

namespace VendorImage

variable (image : VendorImage)

theorem page_pos : 0 < image.page := Nat.lt_of_lt_of_le (by decide) image.pageValid.1

theorem four_dvd_page : 4 ∣ image.page :=
  two_pow_dvd_of_isPowerOfTwo (k := 2) image.pageValid.2
    (Nat.le_trans (by decide) image.pageValid.1)

theorem parts_aligned : ∀ p ∈ image.parts, 0 < p.alignment := by
  have hpage := image.page_pos
  simp [VendorImageParts.parts, VendorImageParts.leading, VendorImageParts.beforeTable,
    VendorImageParts.tablePart, VendorImageParts.bootconfigPart, hpage]

@[simp] theorem length_headerBytes : image.headerBytes.length = image.headerArea := by
  have hfields := image.headerSize
  have harea := le_roundUp image.page_pos image.header.parsed.headerSize.toNat
  simp only [VendorImageParts.headerBytes, VendorImageParts.headerArea, List.length_append,
    List.length_replicate]
  omega

theorem length_bytes :
    image.bytes.length = Segment.finish image.headerArea image.parts + image.rest.length := by
  have hwrite := Segment.length_write image.parts_aligned (0 : UInt8) image.headerArea
  rw [VendorImageParts.bytes, List.length_append, List.length_append, image.length_headerBytes]
  omega

theorem holds_parts :
    Segment.Holds image.bytes (Segment.extents image.headerArea image.parts)
      (Segment.contents image.parts) := by
  have h := Segment.holds_write image.parts_aligned 0 image.headerBytes image.rest
  rwa [image.length_headerBytes] at h

theorem holds_leading :
    Segment.Holds image.bytes (Segment.extents image.headerArea (image.leading image.page))
      (Segment.contents (image.leading image.page)) := by
  have haligned : ∀ p ∈ image.leading image.page, 0 < p.alignment := fun p hp =>
    image.parts_aligned p (List.mem_append_left _ hp)
  have h := Segment.holds_write haligned 0 image.headerBytes
    (Segment.write 0 (Segment.finish image.headerArea (image.leading image.page))
      [image.bootconfigPart] ++ image.rest)
  rw [image.length_headerBytes, ← List.append_assoc (Segment.write _ _ _),
    ← Segment.write_append] at h
  exact h

theorem parse_bytes : parseVendorBootHeader image.bytes = ok image.header.parsed := by
  rw [VendorImageParts.bytes, VendorImageParts.headerBytes, List.append_assoc]
  exact image.header.parse _

/-! ### The code on an image -/

def tableStart : Nat := Segment.finish image.headerArea image.beforeTable

/-- Where the code looks for the bootconfig. -/
def bootconfigStart : Nat := Segment.finish image.headerArea (image.leading 4)

theorem page_dvd_tableStart : image.page ∣ image.tableStart :=
  Segment.dvd_finish (dvd_roundUp _ _) (by simp [VendorImageParts.beforeTable])

/-- What stands behind the table starts behind its rounded length. -/
theorem finish_leading {alignment : Nat} (halignment : 0 < alignment)
    (hdvd : alignment ∣ image.tableStart) :
    Segment.finish image.headerArea (image.leading alignment) =
      image.tableStart + roundUp image.table.length alignment := by
  rw [VendorImageParts.leading, Segment.finish_append]
  exact Segment.next_of_dvd (s := image.tablePart alignment) halignment hdvd

/-- The code looks for the bootconfig before its page, or on it when nothing is filled up. -/
theorem bootconfigStart_le :
    image.bootconfigStart ≤ Segment.finish image.headerArea (image.leading image.page) ∧
      (image.page ∣ roundUp image.table.length 4 →
        image.bootconfigStart = Segment.finish image.headerArea (image.leading image.page)) := by
  have hfour : (0 : Nat) < 4 := by decide
  rw [bootconfigStart, image.finish_leading image.page_pos image.page_dvd_tableStart,
    image.finish_leading hfour (image.four_dvd_page.trans image.page_dvd_tableStart)]
  constructor
  · apply Nat.add_le_add_left
    exact (roundUp_le_iff hfour (image.four_dvd_page.trans (dvd_roundUp _ _))).mpr
      (le_roundUp image.page_pos _)
  · intro hwhole
    rw [(roundUp_four_eq_iff image.page_pos image.four_dvd_page _).mpr hwhole]

/-- The bootconfig fits where the code looks for it. -/
theorem bootconfig_fits :
    image.bootconfigStart + image.bootconfig.length ≤ image.bytes.length := by
  have hstart := image.bootconfigStart_le.1
  have hbehind : Segment.finish image.headerArea (image.leading image.page) +
      image.bootconfig.length ≤ Segment.finish image.headerArea image.parts := by
    rw [VendorImageParts.parts, Segment.finish_append]
    exact Segment.le_next (s := image.bootconfigPart) image.page_pos _
  rw [image.length_bytes]
  omega

variable {A : Arith}

theorem pageSize_ok : pageSize image.header.parsed.pageSize = .ok image.page := by
  obtain ⟨hlarge, hpower⟩ := image.pageValid
  have hvalid : ¬ (image.page < 512 ∨ ¬ isPowerOfTwo image.page) := by
    simp only [hpower, not_true, or_false]
    exact Nat.not_lt.mpr hlarge
  exact if_neg hvalid

theorem blocks_eq :
    (image.leading 4).map Part.block =
      [⟨image.page, .vendorRamdisk, image.header.parsed.vendorRamdiskSize.toNat⟩,
        ⟨image.page, .vendorDtb, image.header.parsed.dtbSize.toNat⟩,
        ⟨4, .vendorRamdiskTable, image.header.parsed.ramdiskTableSize.toNat⟩] := by
  rw [image.vendorRamdiskSize, image.dtbSize, image.tableSize]
  rfl

/-- The block of the bootconfig, which the code looks for at the cursor. -/
theorem pushBootconfig_ok {layout : Layout} {sourceSize : Nat} (hsource : sourceSize < 2 ^ 64)
    (hcursor : layout.cursor = image.bootconfigStart)
    (hfits : 0 < image.bootconfig.length →
      image.bootconfigStart + image.bootconfig.length ≤ sourceSize) :
    ∃ layout' : Layout,
      (if 0 < image.header.parsed.bootconfigSize then
          layout.push sourceSize
            ⟨.bootconfig, layout.cursor, image.header.parsed.bootconfigSize.toNat⟩
        else return layout) = ok layout' ∧
      layout'.sections.map BootSection.extent = layout.sections.map BootSection.extent ++
        Segment.extents image.bootconfigStart [image.bootconfigPart] := by
  have hpos : 0 < image.header.parsed.bootconfigSize ↔ 0 < image.bootconfig.length := by
    rw [UInt32.lt_iff_toNat_lt, image.bootconfigSize]
    rfl
  rw [hcursor, image.bootconfigSize]
  by_cases hsize : 0 < image.bootconfig.length
  · refine ⟨_, (if_pos (hpos.mpr hsize)).trans (push_ok hsource (hfits hsize)), ?_⟩
    rw [Segment.extents, if_pos (show 0 < image.bootconfigPart.data.length from hsize),
      List.map_append]
    rfl
  · refine ⟨layout, if_neg (hpos.not.mpr hsize), ?_⟩
    rw [Segment.extents, if_neg (show ¬ 0 < image.bootconfigPart.data.length from hsize)]
    exact (List.append_nil _).symm

/-- The walk over the parts before the bootconfig puts one after the other. -/
theorem placeVendor_put (hA : Words64 A) (sourceSize : Nat) :
    placeVendor A image.page sourceSize image.header.parsed.vendorRamdiskSize
        image.header.parsed.dtbSize image.header.parsed.ramdiskTableSize
        image.header.parsed.bootconfigSize ⟨image.headerArea, []⟩ = (do
      let layout ← ((image.leading 4).map Part.block).foldlM (Layout.put sourceSize)
        ⟨image.headerArea, []⟩
      if 0 < image.header.parsed.bootconfigSize then
        layout.push sourceSize
          ⟨.bootconfig, layout.cursor, image.header.parsed.bootconfigSize.toNat⟩
      else return layout) := by
  obtain ⟨hcursor, -⟩ := foldl_advance ⟨image.headerArea, []⟩ (image.leading 4)
  have hend := Nat.lt_of_le_of_lt ((Nat.le_add_right _ _).trans image.bootconfig_fits) image.small
  rw [image.blocks_eq] at hcursor ⊢
  simp only [List.foldl_cons, List.foldl_nil] at hcursor
  have htable := hcursor.trans_lt hend
  have hdtb := Nat.lt_of_le_of_lt (Layout.cursor_le_advance
    (b := ⟨4, .vendorRamdiskTable, image.header.parsed.ramdiskTableSize.toNat⟩)
    (show 0 < 4 by decide)) htable
  have hramdisk := Nat.lt_of_le_of_lt (Layout.cursor_le_advance
    (b := ⟨image.page, .vendorDtb, image.header.parsed.dtbSize.toNat⟩) image.page_pos) hdtb
  simp only [placeVendor, List.foldlM_cons, bind_assoc]
  rw [placeNext_put hA image.page_pos hramdisk]
  refine Layout.put_bind_congr ?_
  rw [placeNext_put hA image.page_pos hdtb]
  refine Layout.put_bind_congr ?_
  rw [placeNext_put hA (by decide) htable]
  exact Layout.put_bind_congr rfl

/-- The parts before the bootconfig are placed where they stand. -/
theorem placeVendor_ok (hA : Words64 A) :
    ∃ layout : Layout,
      placeVendor A image.page image.bytes.length image.header.parsed.vendorRamdiskSize
          image.header.parsed.dtbSize image.header.parsed.ramdiskTableSize
          image.header.parsed.bootconfigSize ⟨image.headerArea, []⟩ = ok layout ∧
      layout.sections.map BootSection.extent =
        Segment.extents image.headerArea (image.leading image.page) ++
          Segment.extents image.bootconfigStart [image.bootconfigPart] := by
  obtain ⟨hcursor, hsections⟩ := foldl_advance ⟨image.headerArea, []⟩ (image.leading 4)
  have hfits := hcursor.trans_le ((Nat.le_add_right _ _).trans image.bootconfig_fits)
  have haligned : ∀ b ∈ (image.leading 4).map Part.block, 0 < b.alignment := by
    have hpage := image.page_pos
    simp [VendorImageParts.leading, VendorImageParts.beforeTable, VendorImageParts.tablePart,
      Part.block, hpage]
  rw [image.placeVendor_put hA, foldlM_put_ok haligned hfits, ok_bind]
  obtain ⟨layout, hpush, hlayout⟩ :=
    image.pushBootconfig_ok image.small hcursor fun _ => image.bootconfig_fits
  refine ⟨layout, hpush, ?_⟩
  rw [hlayout, hsections]
  rfl

/-- The walk starts behind the header, in a file of any length. -/
theorem vendorSections_eq {n : Nat} (hn : n < 2 ^ 64) :
    let h := image.header.parsed
    vendorSections A h.headerVersion h.headerSize h.pageSize h.vendorRamdiskSize h.dtbSize
        h.ramdiskTableSize h.bootconfigSize (UInt64.ofNat n) = (do
      let layout ← placeVendor A image.page n h.vendorRamdiskSize h.dtbSize h.ramdiskTableSize
        h.bootconfigSize ⟨image.headerArea, []⟩
      return layout.sections) := by
  intro h
  have hsource : (UInt64.ofNat n).toNat = n := UInt64.toNat_ofNat_of_lt' hn
  have hminimum := image.headerSize
  rw [image.header.length_fields] at hminimum
  have harea : image.headerArea ≤ image.bytes.length := by
    rw [VendorImageParts.bytes, List.length_append, image.length_headerBytes]
    exact Nat.le_add_right _ _
  have hcursor : alignUp h.headerSize.toNat image.page = .ok image.headerArea := by
    have hsize := h.headerSize.toNat_lt
    rw [alignUp_eq_ok image.page_pos (by omega)]
    exact ⟨rfl, Nat.lt_of_le_of_lt harea image.small⟩
  simp only [vendorSections, h, image.pageSize_ok, ofExcept_ok, ok_bind, failIf,
    if_neg (Nat.not_lt.mpr hminimum), hcursor, hsource]

theorem sections_ok (hA : Words64 A) :
    ∃ sections, image.sections A = ok sections ∧
      sections.map BootSection.extent =
        Segment.extents image.headerArea (image.leading image.page) ++
          Segment.extents image.bootconfigStart [image.bootconfigPart] := by
  obtain ⟨layout, hrun, hlayout⟩ := image.placeVendor_ok hA
  have heq : image.sections A = _ := image.vendorSections_eq image.small
  rw [hrun, ok_bind] at heq
  exact ⟨layout.sections, heq, hlayout⟩

end VendorImage

theorem filter_extents (image : VendorImageParts) {sections : List BootSection} {start : Nat}
    {front : List (BootSectionKind × Region)}
    (hfront : ∀ e ∈ front, e.1 ≠ .bootconfig)
    (hsections : sections.map BootSection.extent =
      front ++ Segment.extents start [image.bootconfigPart]) :
    (sections.filter (·.kind ≠ .bootconfig)).map BootSection.extent = front := by
  have hfilter : (sections.filter (·.kind ≠ .bootconfig)).map BootSection.extent =
      (sections.map BootSection.extent).filter (·.1 ≠ .bootconfig) := by
    rw [List.filter_map]
    rfl
  rw [hfilter, hsections, List.filter_append, List.filter_eq_self.mpr, List.filter_eq_nil_iff.mpr,
    List.append_nil]
  · intro e he
    obtain ⟨p, hp, hkey⟩ := Segment.key_of_mem_extents he
    rw [hkey, List.mem_singleton.mp hp]
    simp [VendorImageParts.bootconfigPart]
  · intro e he
    exact decide_eq_true (hfront e he)

theorem kind_ne_of_mem_leading (image : VendorImageParts) (start : Nat) :
    ∀ e ∈ Segment.extents start (image.leading image.page), e.1 ≠ .bootconfig := by
  intro e he
  obtain ⟨p, hp, hkey⟩ := Segment.key_of_mem_extents he
  rw [hkey]
  simp only [VendorImageParts.leading, VendorImageParts.beforeTable, VendorImageParts.tablePart,
    List.cons_append, List.nil_append, List.mem_cons, List.not_mem_nil, or_false] at hp
  rcases hp with rfl | rfl | rfl
  all_goals simp

/-- **A vendor boot image is taken apart.** For every image of the format, of either
    version, the parser reads its header back, the layout accepts it, and the sections
    other than the bootconfig are its parts; so is the bootconfig when there is none or
    the table, rounded up to 4 bytes, fills whole pages. -/
theorem vendorImage_recovered (A : Arith) (image : VendorImage) (hA : Words64 A) :
    parseVendorBootHeader image.bytes = ok image.header.parsed ∧
      ∃ sections, image.sections A = ok sections ∧
        Segment.Holds image.bytes
          ((sections.filter (·.kind ≠ .bootconfig)).map BootSection.extent)
          (Segment.contents (image.leading image.page)) ∧
        (image.bootconfig = [] ∨ image.page ∣ roundUp image.table.length 4 →
          Segment.Holds image.bytes (sections.map BootSection.extent)
            (Segment.contents image.parts)) := by
  refine ⟨image.parse_bytes, ?_⟩
  obtain ⟨sections, hrun, hsections⟩ := image.sections_ok hA
  refine ⟨sections, hrun, ?_, ?_⟩
  · rw [filter_extents image.toVendorImageParts (kind_ne_of_mem_leading _ _) hsections]
    exact image.holds_leading
  · intro hexact
    have hparts := image.holds_parts
    rw [VendorImageParts.parts, Segment.extents_append] at hparts
    rw [hsections]
    rcases hexact with hnone | hwhole
    · have hempty : ¬ 0 < image.bootconfigPart.data.length := by
        simp [VendorImageParts.bootconfigPart, hnone]
      rw [Segment.extents, if_neg hempty] at hparts ⊢
      exact hparts
    · rw [image.bootconfigStart_le.2 hwhole]
      exact hparts

/-- A version 4 image with pages of 512 bytes and no DTB. -/
def smallVendorImage : VendorImage where
  header := .v4
    { pageSize := 512, kernelAddr := 0, ramdiskAddr := 0, vendorRamdiskSize := 3,
      cmdline := List.Vector.replicate 2048 0, tagsAddr := 0, name := List.Vector.replicate 16 0,
      headerSize := 2128, dtbSize := 0, dtbAddr := 0, vendorRamdiskTableSize := 510,
      vendorRamdiskTableEntryNum := 0, vendorRamdiskTableEntrySize := 108, bootconfigSize := 2 }
  vendorRamdisk := [1, 2, 3]
  dtb := []
  table := List.replicate 510 4
  bootconfig := [5, 6]
  rest := [7]
  pageValid := by decide
  headerSize := by decide +kernel
  vendorRamdiskSize := rfl
  dtbSize := rfl
  tableSize := List.length_replicate.symm
  bootconfigSize := rfl
  small := by decide +kernel

/-- The image in a release build. -/
theorem vendorImage_recovered_small :
    ∃ sections, smallVendorImage.sections (.wrapping 64) = ok sections ∧
      Segment.Holds smallVendorImage.bytes (sections.map BootSection.extent)
        (Segment.contents smallVendorImage.parts) := by
  obtain ⟨-, sections, hrun, -, hall⟩ :=
    vendorImage_recovered (.wrapping 64) smallVendorImage (by decide)
  have htable : smallVendorImage.table.length = 510 := List.length_replicate
  refine ⟨sections, hrun, hall (Or.inr ?_)⟩
  rw [htable]
  decide

end ImgTools
