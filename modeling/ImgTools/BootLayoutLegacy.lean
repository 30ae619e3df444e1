import ImgTools.BootLayoutFront

/-!
# The layout of version 0, 1 and 2 images

The kernel, the ramdisk, the second stage and the recovery DTBO are placed one
behind the other. The DTB is too, when it fits; where it does not, the source
takes the last bytes of the image for it, without a look at where the section
before it ends. `bootSections_legacy_iff` says when the sections stay apart.
-/

namespace ImgTools

open Exec Fallible Alignment

/-- The offset of a DTB that is accepted: behind the sections before it, or at the
    end of the source. -/
theorem dtbOffset_eq {header : BootHeader} {sourceSize cursor : Nat} (hsource : sourceSize < 2 ^ 64)
    (hfit : dtbOffset header sourceSize cursor + header.dtbSize.toNat ≤ sourceSize) :
    (cursor + header.dtbSize.toNat ≤ sourceSize ∧ dtbOffset header sourceSize cursor = cursor) ∨
    (sourceSize < cursor + header.dtbSize.toNat ∧
      dtbOffset header sourceSize cursor = sourceSize - header.dtbSize.toNat ∧
      header.dtbSize.toNat ≤ sourceSize) := by
  simp only [dtbOffset] at hfit ⊢
  by_cases hnext : cursor + header.dtbSize.toNat ≤ sourceSize
  · left
    have hadd : checkedAdd 64 cursor header.dtbSize.toNat = some (cursor + header.dtbSize.toNat) :=
      checkedAdd_eq_some.mpr ⟨by omega, rfl⟩
    exact ⟨hnext, by simp [hadd, hnext]⟩
  · right
    have hany : (checkedAdd 64 cursor header.dtbSize.toNat).any (· ≤ sourceSize) = false := by
      rw [Option.any_eq_false]
      intro finish hfinish
      obtain ⟨-, rfl⟩ := checkedAdd_eq_some.mp hfinish
      simpa using hnext
    rw [hany] at hfit ⊢
    simp only [Bool.false_eq_true, if_false, checkedSub] at hfit ⊢
    by_cases hlarge : header.dtbSize.toNat ≤ sourceSize
    · rw [if_pos hlarge]
      exact ⟨by omega, rfl, hlarge⟩
    · rw [if_neg hlarge] at hfit
      simp only [Option.getD_none] at hfit
      omega

/-- Sections that are not empty stay apart when they ascend. -/
theorem apart_iff_ascending_sections {low : Nat} {sections : List BootSection}
    (hsizes : ∀ s ∈ sections, 0 < s.size) :
    Region.Apart low (sections.map BootSection.region) ↔
      Region.Ascending low (sections.map BootSection.region) := by
  refine Region.apart_iff_ascending ?_
  intro r hr
  obtain ⟨s, hs, rfl⟩ := List.mem_map.mp hr
  exact hsizes s hs

/-- An accepted image holds the sections before the DTB, and then the DTB. -/
theorem bootSections_legacy_eq_ok {A : Arith} {header : BootHeader} {sourceSize : UInt64}
    {sections : List BootSection} (hA : Words64 A) (hversion : header.headerVersion ≤ 2)
    (h : bootSections A header sourceSize = ok sections) :
    0 < header.pageSize.toNat ∧ ∃ layout layout' : Layout,
      layout.Shows (roundUp header.headerSize.toNat header.pageSize.toNat)
        (front header header.pageSize.toNat sourceSize.toNat) ∧
      placeDtb A header header.pageSize.toNat sourceSize.toNat layout = ok layout' ∧
      layout'.sections = sections := by
  have hlegacy : ¬ header.headerVersion ≥ 3 := by
    rw [ge_iff_le, UInt32.le_iff_toNat_le]
    have hle := UInt32.le_iff_toNat_le.mp hversion
    have htwo : (2 : UInt32).toNat = 2 := rfl
    have hthree : (3 : UInt32).toNat = 3 := rfl
    omega
  unfold bootSections at h
  obtain ⟨page, hpage, h⟩ := bind_eq_ok.mp h
  rw [if_neg hlegacy, ofExcept_eq_ok] at hpage
  obtain ⟨rfl, hlarge, -⟩ := pageSize_eq_ok hpage
  have hpos : 0 < header.pageSize.toNat := by omega
  obtain ⟨cursor, hcursor, h⟩ := bind_eq_ok.mp h
  obtain rfl := alignUp_headerSize hpos (ofExcept_eq_ok.mp hcursor)
  obtain ⟨layout, hfront, h⟩ := bind_eq_ok.mp h
  obtain ⟨layout', hdtb, h⟩ := bind_eq_ok.mp h
  rw [if_neg hlegacy, pure_eq, ok_inj] at h
  exact ⟨hpos, layout, layout', placeFront_shows hA hpos sourceSize.toNat_lt hfront, hdtb, h⟩

/-- A DTB ascends from the sections before it exactly when it fits behind them. -/
theorem placeDtb_apart_iff {A : Arith} {header : BootHeader} {page sourceSize low : Nat}
    {f : Front} {layout layout' : Layout} (hA : Words64 A) (hpage : 0 < page)
    (hsource : sourceSize < 2 ^ 64) (hshows : layout.Shows low f)
    (hdeclared : header.headerVersion ≥ 2 ∧ 0 < header.dtbSize)
    (h : placeDtb A header page sourceSize layout = ok layout') :
    Region.Apart low (layout'.sections.map BootSection.region) ↔
      f.finish + header.dtbSize.toNat ≤ sourceSize := by
  have hsize : 0 < header.dtbSize.toNat := UInt32.lt_iff_toNat_lt.mp hdeclared.2
  rw [placeDtb, if_pos hdeclared] at h
  obtain ⟨hfit, rfl⟩ := place_eq_ok hA hpage hsource h
  have hsizes : ∀ s ∈ layout.sections ++
      [⟨.dtb, dtbOffset header sourceSize layout.cursor, header.dtbSize.toNat⟩],
      0 < s.size := by
    intro s hs
    rcases List.mem_append.mp hs with hs | hs
    · exact hshows.sizes s hs
    · rw [List.mem_singleton.mp hs]
      exact hsize
  have hcursor := hshows.cursor
  have hbehind := hshows.behind
  rw [apart_iff_ascending_sections hsizes, List.map_append, List.map_singleton,
    Region.ascending_append, hshows.finish, and_iff_right hshows.ascending]
  simp only [BootSection.region]
  rcases dtbOffset_eq hsource hfit with ⟨hnext, hoffset⟩ | ⟨-, hoffset, hle⟩
  · rw [hoffset]
    omega
  · rw [hoffset]
    omega

/-- **The legacy layout.** The sections of an accepted image are disjoint, in
    increasing order and behind the header exactly when it has no DTB or the DTB
    fits between the section before it and the end of the source. -/
theorem bootSections_legacy_iff (A : Arith) (header : BootHeader) (sourceSize : UInt64)
    (sections : List BootSection) (hA : Words64 A) (hversion : header.headerVersion ≤ 2)
    (h : bootSections A header sourceSize = ok sections) :
    Region.Apart (roundUp header.headerSize.toNat header.pageSize.toNat)
        (sections.map BootSection.region) ↔
      header.headerVersion < 2 ∨ header.dtbSize = 0 ∨
        (front header header.pageSize.toNat sourceSize.toNat).finish + header.dtbSize.toNat ≤
          sourceSize.toNat := by
  obtain ⟨hpage, layout, layout', hshows, hdtb, rfl⟩ := bootSections_legacy_eq_ok hA hversion h
  by_cases hdeclared : header.headerVersion ≥ 2 ∧ 0 < header.dtbSize
  · have hnew : ¬ header.headerVersion < 2 := UInt32.not_lt.mpr hdeclared.1
    have hsome : ¬ header.dtbSize = 0 := UInt32.pos_iff_ne_zero.mp hdeclared.2
    rw [or_iff_right hnew, or_iff_right hsome]
    exact placeDtb_apart_iff hA hpage sourceSize.toNat_lt hshows hdeclared hdtb
  · rw [placeDtb, if_neg hdeclared, pure_eq, ok_inj] at hdtb
    rw [← hdtb]
    refine iff_of_true ((apart_iff_ascending_sections hshows.sizes).mpr hshows.ascending) ?_
    rcases not_and_or.mp hdeclared with hold | hnone
    · exact Or.inl (UInt32.not_le.mp hold)
    · exact Or.inr (Or.inl (not_not.mp fun hsome => hnone (UInt32.pos_iff_ne_zero.mpr hsome)))

/-! ### An image without room for its DTB -/

/-- A version 2 header with a kernel of 100 bytes and a DTB of 2048, for pages of 2048. -/
def dtbHeader : BootHeader where
  headerVersion := 2
  headerSize := 1660
  pageSize := 2048
  kernelSize := 100
  kernelAddr := 0
  ramdiskSize := 0
  ramdiskAddr := 0
  secondSize := 0
  secondAddr := 0
  tagsAddr := 0
  osVersionRaw := 0
  recoveryDtboSize := 0
  recoveryDtboOffset := 0
  dtbSize := 2048
  dtbAddr := 0
  signatureSize := 0

def dtbHeaderBytes : List UInt8 :=
  bootMagic ++ LittleEndian.encode 4 100 ++ List.replicate 24 0 ++ LittleEndian.encode 4 2048 ++
    LittleEndian.encode 4 2 ++ List.replicate 1604 0 ++ LittleEndian.encode 4 2048 ++
    List.replicate 8 0

/-- The condition on an image with room for the DTB. -/
theorem bootSections_legacy_iff_room :
    Region.Apart 2048 [⟨2048, 100⟩, ⟨4096, 2048⟩] ↔
      dtbHeader.headerVersion < 2 ∨ dtbHeader.dtbSize = 0 ∨
        (front dtbHeader 2048 6144).finish + 2048 ≤ 6144 :=
  bootSections_legacy_iff (.wrapping 64) dtbHeader 6144
    [⟨.kernel, 2048, 100⟩, ⟨.dtb, 4096, 2048⟩] (by decide) (by decide) (by decide)

/-- In a source of 2200 bytes the DTB is placed over the kernel and the header. -/
theorem bootSections_legacy_overlaps :
    parseBootHeader dtbHeaderBytes = ok dtbHeader ∧
    bootSections (.wrapping 64) dtbHeader 2200 =
      ok [⟨.kernel, 2048, 100⟩, ⟨.dtb, 152, 2048⟩] ∧
    ¬ Region.Apart 2048 [⟨2048, 100⟩, ⟨152, 2048⟩] := by
  refine ⟨by decide +kernel, by decide, ?_⟩
  intro h
  exact absurd (h.above ⟨152, 2048⟩ (by simp)) (by decide)

end ImgTools
