import ImgTools.VendorLayoutSound

/-!
# The layout of vendor boot images

The format starts every section of a vendor boot image on a page. The source
aligns the cursor to the page after the vendor ramdisk and after the DTB, but to
4 bytes after the ramdisk table, so a bootconfig behind a table can start inside
a page. `vendorSections_iff` says when the offsets are those of the format.
-/

namespace ImgTools

open Exec Fallible Alignment

def pagesBefore (page : Nat) (declared : List (BootSectionKind × Nat)) (kind : BootSectionKind) :
    Nat :=
  ((declared.takeWhile fun d => d.1 != kind).map fun d => (d.2 ⌈/⌉ page : Nat)).sum

def declaredSection (kind : BootSectionKind) (offset : Nat) (size : UInt32) :
    List BootSection :=
  if 0 < size then [⟨kind, offset, size.toNat⟩] else []

section Pages

variable {page : Nat} {kind : BootSectionKind} {blocks : List Block}

theorem laidOut_cons (alignment cursor : Nat) (size : UInt32) :
    laidOut cursor (⟨alignment, kind, size.toNat⟩ :: blocks) =
      declaredSection kind cursor size ++
        laidOut (if 0 < size then roundUp (cursor + size.toNat) alignment else cursor) blocks := by
  unfold declaredSection
  by_cases hsize : 0 < size
  · have hpos : 0 < (Block.mk alignment kind size.toNat).size := UInt32.lt_iff_toNat_lt.mp hsize
    rw [laidOut_cons_of_pos hpos, if_pos hsize, if_pos hsize]
    rfl
  · have hempty : ¬ 0 < (Block.mk alignment kind size.toNat).size :=
      fun hpos => hsize (UInt32.lt_iff_toNat_lt.mpr hpos)
    rw [laidOut_cons_of_empty hempty, if_neg hsize, if_neg hsize]
    rfl

/-- The cursor behind a block that starts at a multiple of its alignment. -/
theorem laidOut_aligned {alignment cursor : Nat} (halignment : 0 < alignment)
    (hcursor : alignment ∣ cursor) (size : UInt32) :
    laidOut cursor (⟨alignment, kind, size.toNat⟩ :: blocks) =
      declaredSection kind cursor size ++
        laidOut (cursor + roundUp size.toNat alignment) blocks := by
  rw [laidOut_cons]
  by_cases hsize : 0 < size
  · rw [if_pos hsize, roundUp_add_of_dvd halignment hcursor]
  · have hzero : size.toNat = 0 := by
      rw [UInt32.lt_iff_toNat_lt] at hsize
      exact Nat.eq_zero_of_not_pos hsize
    rw [if_neg hsize, hzero, roundUp_of_dvd halignment (Nat.dvd_zero alignment), Nat.add_zero]

/-- A block that aligns to the page moves a cursor of whole pages by whole pages. -/
theorem laidOut_pages (hpage : 0 < page) (pages : Nat) (size : UInt32) :
    laidOut (page * pages) (⟨page, kind, size.toNat⟩ :: blocks) =
      declaredSection kind (page * pages) size ++
        laidOut (page * (pages + size.toNat ⌈/⌉ page)) blocks := by
  rw [laidOut_aligned hpage (Nat.dvd_mul_right page pages), Nat.mul_add]
  rfl

/-- The sections of an image whose header ends on a page boundary. -/
theorem laidOut_vendorBlocks (hpage : 0 < page) (hfour : 4 ∣ page) (pages : Nat)
    (vendorRamdiskSize dtbSize tableSize bootconfigSize : UInt32) :
    ∃ tablePages,
      tablePages = pages + vendorRamdiskSize.toNat ⌈/⌉ page + dtbSize.toNat ⌈/⌉ page ∧
      laidOut (page * pages)
          (vendorBlocks page vendorRamdiskSize dtbSize tableSize bootconfigSize) =
        declaredSection .vendorRamdisk (page * pages) vendorRamdiskSize ++
        (declaredSection .vendorDtb (page * (pages + vendorRamdiskSize.toNat ⌈/⌉ page)) dtbSize ++
        (declaredSection .vendorRamdiskTable (page * tablePages) tableSize ++
        declaredSection .bootconfig (page * tablePages + roundUp tableSize.toNat 4)
          bootconfigSize)) := by
  refine ⟨_, rfl, ?_⟩
  rw [vendorBlocks, laidOut_pages hpage, laidOut_pages hpage,
    laidOut_aligned (by decide) (hfour.trans (Nat.dvd_mul_right page _)), laidOut_cons]
  simp only [laidOut, List.append_nil]

end Pages

theorem mem_declaredSection {kind : BootSectionKind} {offset : Nat} {size : UInt32}
    {s : BootSection} :
    s ∈ declaredSection kind offset size ↔ 0 < size ∧ s = ⟨kind, offset, size.toNat⟩ := by
  unfold declaredSection
  split
  · next h => simp [h]
  · next h => simp [h]

/-- Rounding to 4 bytes is rounding to the page when it reaches a page. -/
theorem roundUp_four_eq_iff {page : Nat} (hpage : 0 < page) (hfour : 4 ∣ page) (n : Nat) :
    roundUp n 4 = roundUp n page ↔ page ∣ roundUp n 4 := by
  constructor
  · intro h
    exact h ▸ dvd_roundUp n page
  · intro h
    have hfour' : (0 : Nat) < 4 := by decide
    apply Nat.le_antisymm
    · exact (roundUp_le_iff hfour' (hfour.trans (dvd_roundUp n page))).mpr (le_roundUp hpage n)
    · exact (roundUp_le_iff hpage h).mpr (le_roundUp hfour' n)

/-- The bootconfig starts on its page exactly when the ramdisk table ends on one. -/
theorem bootconfig_eq_iff {page : Nat} (hpage : 0 < page) (hfour : 4 ∣ page) (pages : Nat)
    (vendorRamdiskSize dtbSize tableSize bootconfigSize : UInt32) :
    page * (pages + vendorRamdiskSize.toNat ⌈/⌉ page + dtbSize.toNat ⌈/⌉ page) +
        roundUp tableSize.toNat 4 =
      page * (pages + pagesBefore page
        (vendorDeclared vendorRamdiskSize dtbSize tableSize bootconfigSize) .bootconfig) ↔
    page ∣ roundUp tableSize.toNat 4 := by
  have hpages : pagesBefore page (vendorDeclared vendorRamdiskSize dtbSize tableSize
      bootconfigSize) .bootconfig = vendorRamdiskSize.toNat ⌈/⌉ page +
        (dtbSize.toNat ⌈/⌉ page + tableSize.toNat ⌈/⌉ page) := by
    simp [pagesBefore, vendorDeclared]
  have hsum : pages + (vendorRamdiskSize.toNat ⌈/⌉ page +
      (dtbSize.toNat ⌈/⌉ page + tableSize.toNat ⌈/⌉ page)) =
        pages + vendorRamdiskSize.toNat ⌈/⌉ page + dtbSize.toNat ⌈/⌉ page +
          tableSize.toNat ⌈/⌉ page := by omega
  rw [hpages, hsum, Nat.mul_add page _ (tableSize.toNat ⌈/⌉ page), Nat.add_left_cancel_iff]
  exact roundUp_four_eq_iff hpage hfour tableSize.toNat

/-- **The vendor boot layout.** Every section of an accepted image starts on the page
    that the format gives it exactly when there is no bootconfig, no ramdisk table,
    or the table rounded up to 4 bytes fills whole pages. -/
theorem vendorSections_iff (A : Arith) (headerVersion headerSize pageSizeValue vendorRamdiskSize
    dtbSize tableSize bootconfigSize : UInt32) (sourceSize : UInt64) (sections : List BootSection)
    (hA : Words64 A)
    (h : vendorSections A headerVersion headerSize pageSizeValue vendorRamdiskSize dtbSize
      tableSize bootconfigSize sourceSize = ok sections) :
    (∀ s ∈ sections, s.offset = pageSizeValue.toNat * (headerSize.toNat ⌈/⌉ pageSizeValue.toNat +
        pagesBefore pageSizeValue.toNat
          (vendorDeclared vendorRamdiskSize dtbSize tableSize bootconfigSize) s.kind)) ↔
      bootconfigSize = 0 ∨ tableSize = 0 ∨
        pageSizeValue.toNat ∣ roundUp tableSize.toNat 4 := by
  obtain ⟨result, hrun, hresult⟩ := vendorSections_steady headerVersion headerSize pageSizeValue
    vendorRamdiskSize dtbSize tableSize bootconfigSize sourceSize
  obtain ⟨hpos, hfour, hsections, -⟩ :=
    hresult sections (Outcome.done.inj ((hrun A hA).symm.trans h))
  obtain ⟨tablePages, rfl, hlaid⟩ := laidOut_vendorBlocks hpos hfour
    (headerSize.toNat ⌈/⌉ pageSizeValue.toNat) vendorRamdiskSize dtbSize tableSize bootconfigSize
  have hboot := bootconfig_eq_iff hpos hfour (headerSize.toNat ⌈/⌉ pageSizeValue.toNat)
    vendorRamdiskSize dtbSize tableSize bootconfigSize
  have hplaces := hsections.trans hlaid
  rw [hplaces]
  simp only [List.mem_append, mem_declaredSection]
  constructor
  · intro hplaced
    by_cases hnone : bootconfigSize = 0
    · exact Or.inl hnone
    · have hsome : 0 < bootconfigSize := UInt32.pos_iff_ne_zero.mpr hnone
      exact Or.inr (Or.inr (hboot.mp (hplaced _ (Or.inr (Or.inr (Or.inr ⟨hsome, rfl⟩))))))
  · intro hexact s hs
    rcases hs with ⟨-, rfl⟩ | ⟨-, rfl⟩ | ⟨-, rfl⟩ | ⟨hsome, rfl⟩
    · simp [pagesBefore, vendorDeclared]
    · simp [pagesBefore, vendorDeclared]
    · simp [pagesBefore, vendorDeclared, Nat.add_assoc]
    · apply hboot.mpr
      rcases hexact with hnone | hempty | hwhole
      · exact absurd hnone (UInt32.pos_iff_ne_zero.mp hsome)
      · have hzero : tableSize.toNat = 0 := UInt32.toNat_inj.mpr hempty
        rw [hzero, roundUp_of_dvd (by decide) (Nat.dvd_zero 4)]
        exact Nat.dvd_zero pageSizeValue.toNat
      · exact hwhole

/-- The condition on an image whose ramdisk table fills a page. -/
theorem vendorSections_iff_whole :
    (∀ s ∈ [⟨.vendorRamdiskTable, 4096, 4096⟩, (⟨.bootconfig, 8192, 50⟩ : BootSection)],
      s.offset = 4096 * ((2128 : Nat) ⌈/⌉ (4096 : Nat) +
        pagesBefore 4096 (vendorDeclared 0 0 4096 50) s.kind)) ↔
      (50 : UInt32) = 0 ∨ (4096 : UInt32) = 0 ∨ 4096 ∣ roundUp 4096 4 :=
  vendorSections_iff (.wrapping 64) 4 2128 4096 0 0 4096 50 16384 _ (by decide) (by decide)

/-- A bootconfig behind a ramdisk table of 108 bytes starts inside a page. -/
theorem vendorSections_misplaced :
    vendorSections (.wrapping 64) 4 2128 4096 0 0 108 50 16384 =
      ok [⟨.vendorRamdiskTable, 4096, 108⟩, ⟨.bootconfig, 4204, 50⟩] ∧
    4096 * ((2128 : Nat) ⌈/⌉ (4096 : Nat) +
      pagesBefore 4096 (vendorDeclared 0 0 108 50) .bootconfig) = 8192 ∧
    ¬ 4096 ∣ 4204 := by
  refine ⟨by decide, ?_, by decide⟩
  simp [pagesBefore, vendorDeclared, Nat.ceilDiv_eq_add_pred_div]

end ImgTools
