import ImgTools.BootImage
import ImgTools.VendorImage

/-!
# Boot images that were cut off

An image of which only the first `n` bytes are there. The layout refuses it with the
first part that is not there as a whole, as far as parts are looked for at the cursor;
and where no such part is cut, it finds all of them. The DTB and what stands behind it
are looked for from the end of the file as well, so that nothing is said of these.
-/

namespace ImgTools

open Exec Fallible Alignment

/-! ### Parts that are cut -/

/-- The first of the extents that a file of `n` bytes does not have as a whole. -/
def firstCut (n : Nat) (extents : List (BootSectionKind × Region)) :
    Option (BootSectionKind × Region) := extents.find? fun e => n < e.2.finish

def cutOff (n : Nat) (e : BootSectionKind × Region) : LayoutError :=
  .sectionOutOfBounds e.1 e.2.start e.2.size n

theorem firstCut_cons_of_lt {n : Nat} {e : BootSectionKind × Region} (h : n < e.2.finish)
    (extents : List (BootSectionKind × Region)) : firstCut n (e :: extents) = some e :=
  List.find?_cons_of_pos (decide_eq_true h)

theorem firstCut_cons_of_le {n : Nat} {e : BootSectionKind × Region} (h : e.2.finish ≤ n)
    (extents : List (BootSectionKind × Region)) : firstCut n (e :: extents) = firstCut n extents :=
  List.find?_cons_of_neg fun hcut => Nat.not_lt.mpr h (of_decide_eq_true hcut)

theorem finish_le_of_firstCut {n : Nat} {extents : List (BootSectionKind × Region)}
    (h : firstCut n extents = none) : ∀ e ∈ extents, e.2.finish ≤ n := by
  intro e he
  have hnot := List.find?_eq_none.mp h e he
  exact Nat.not_lt.mp (by simpa using hnot)

/-- Parts are put until the first one that is cut. -/
theorem foldlM_put (n : Nat) (layout : Layout) (parts : List Part) :
    (parts.map Part.block).foldlM (Layout.put n) layout =
      match firstCut n (Segment.extents layout.cursor parts) with
      | some e => fail (cutOff n e)
      | none => ok ((parts.map Part.block).foldl Layout.advance layout) := by
  induction parts generalizing layout with
  | nil => rfl
  | cons p parts ih =>
    rw [List.map_cons, List.foldlM_cons, List.foldl_cons]
    by_cases hsize : 0 < p.data.length
    · rw [Segment.extents, if_pos hsize]
      by_cases hcut : n < layout.cursor + p.data.length
      · have hput : layout.put n p.block =
            fail (cutOff n (p.key, ⟨layout.cursor, p.data.length⟩)) := if_pos ⟨hsize, hcut⟩
        rw [hput, fail_bind, firstCut_cons_of_lt hcut]
      · have hput : layout.put n p.block = ok (layout.advance p.block) :=
          if_neg fun h => hcut h.2
        rw [hput, ok_bind, ih, Layout.advance_cursor, firstCut_cons_of_le (Nat.not_lt.mp hcut)]
    · have hput : layout.put n p.block = ok (layout.advance p.block) :=
        if_neg fun h => hsize h.1
      rw [hput, ok_bind, ih, Layout.advance_cursor, Segment.extents, if_neg hsize,
        Segment.next_of_empty hsize]

/-! ### Boot images -/

def BootImageParts.beforeDtb (image : BootImageParts) : List Part :=
  image.leading ++ [⟨.recoveryDtbo, image.page, image.recoveryDtbo⟩]

def BootImageParts.dtbPart (image : BootImageParts) : Part := ⟨.dtb, image.page, image.dtb⟩

section Place

variable {A : Arith} {header : BootHeader} {page n : Nat} {layout : Layout}

theorem place_inside (hA : Words64 A) (hpage : 0 < page) {kind : BootSectionKind}
    {offset size : Nat} (hsize : 0 < size) (hfit : offset + size ≤ n)
    (hword : roundUp (offset + size) page < 2 ^ 64) :
    layout.place A page n kind offset size =
      ok ⟨roundUp (offset + size) page, layout.sections ++ [⟨kind, offset, size⟩]⟩ := by
  let layout' : Layout := { layout with cursor := offset }
  have hadvance : layout'.advance ⟨page, kind, size⟩ =
      ⟨roundUp (offset + size) page, layout.sections ++ [⟨kind, offset, size⟩]⟩ :=
    Layout.advance_of_pos (b := ⟨page, kind, size⟩) hsize
  have hput : layout'.place A page n kind offset size = layout'.put n ⟨page, kind, size⟩ :=
    place_put hA hpage hsize (by rw [hadvance]; exact hword)
  rw [put_of_le hfit, hadvance] at hput
  exact hput

/-- A DTB that does not fit at the cursor goes to the end of the file. -/
theorem dtbOffset_of_lt {cursor : Nat} (hroom : n < cursor + header.dtbSize.toNat)
    (hdtb : header.dtbSize.toNat ≤ n) :
    dtbOffset header n cursor = n - header.dtbSize.toNat := by
  have hsub : checkedSub n header.dtbSize.toNat = some (n - header.dtbSize.toNat) := if_pos hdtb
  have hnot : ¬ (checkedAdd 64 cursor header.dtbSize.toNat).any (· ≤ n) = true := by
    unfold checkedAdd
    split
    · simpa using hroom
    · simp
  rw [dtbOffset, hsub, if_neg hnot]
  rfl

theorem trailer_kind {cursor signatureSize : Nat} :
    ∀ s ∈ trailer cursor n signatureSize, s.kind = .bootconfig ∨ s.kind = .signature := by
  intro s hs
  rcases List.mem_append.mp hs with hs | hs
  all_goals
    split at hs
    · rw [List.mem_singleton.mp hs]
      simp
    · exact absurd hs List.not_mem_nil

/-- A DTB that is no longer than the file is found somewhere. -/
theorem placeDtb_inside (hA : Words64 A) (hpage : 0 < page) (hn : n < 2 ^ 64)
    (henabled : 0 < header.dtbSize → header.headerVersion ≥ 2) (hdtb : header.dtbSize.toNat ≤ n)
    (hword : roundUp (layout.cursor + header.dtbSize.toNat) page < 2 ^ 64) :
    ∃ layout' : Layout, placeDtb A header page n layout = ok layout' ∧
      ∃ rest, layout'.sections = layout.sections ++ rest ∧ ∀ s ∈ rest, s.kind = .dtb := by
  unfold placeDtb
  by_cases hsize : 0 < header.dtbSize
  · have hpos : 0 < header.dtbSize.toNat := UInt32.lt_iff_toNat_lt.mp hsize
    obtain ⟨offset, hoffset, hfit, hrounded⟩ : ∃ offset,
        dtbOffset header n layout.cursor = offset ∧ offset + header.dtbSize.toNat ≤ n ∧
        roundUp (offset + header.dtbSize.toNat) page < 2 ^ 64 := by
      by_cases hroom : layout.cursor + header.dtbSize.toNat ≤ n
      · exact ⟨layout.cursor, dtbOffset_of_le hn hroom, hroom, hword⟩
      · have hle : n ≤ roundUp (layout.cursor + header.dtbSize.toNat) page :=
          (Nat.le_of_lt (Nat.not_le.mp hroom)).trans (le_roundUp hpage _)
        refine ⟨_, dtbOffset_of_lt (Nat.not_le.mp hroom) hdtb, by omega, ?_⟩
        rw [Nat.sub_add_cancel hdtb]
        exact Nat.lt_of_le_of_lt ((roundUp_le_iff hpage (dvd_roundUp _ _)).mpr hle) hword
    rw [if_pos ⟨henabled hsize, hsize⟩, hoffset, place_inside hA hpage hpos hfit hrounded]
    exact ⟨_, rfl, _, rfl, by simp⟩
  · rw [if_neg fun h => hsize h.2]
    exact ⟨layout, rfl, [], (List.append_nil _).symm, by simp⟩

end Place

namespace BootImage

variable (image : BootImage) {A : Arith}

theorem frontBlocks_eq :
    image.header.parsed.frontBlocks image.page = image.beforeDtb.map Part.block := by
  rw [BootHeader.frontBlocks, image.blocks_eq.2, BootImageParts.beforeDtb, List.map_append,
    image.recoveryDtboSize]
  rfl

theorem paged_eq : image.paged = image.beforeDtb ++ [image.dtbPart] := rfl

theorem page_dvd_cursor : image.page ∣ image.cursor :=
  Segment.dvd_finish (dvd_roundUp _ _)
    (by simp [BootImageParts.paged, BootImageParts.leading])

theorem beforeDtb_le :
    Segment.finish image.headerArea image.beforeDtb + image.dtb.length ≤ image.cursor := by
  rw [cursor, image.paged_eq, Segment.finish_append]
  exact Segment.le_next (s := image.dtbPart) image.page_pos _

theorem holds_beforeDtb :
    Segment.Holds image.bytes (Segment.extents image.headerArea image.beforeDtb)
      (Segment.contents image.beforeDtb) := by
  have haligned : ∀ p ∈ image.beforeDtb, 0 < p.alignment := fun p hp =>
    image.paged_aligned p (image.paged_eq ▸ List.mem_append_left _ hp)
  have h := Segment.holds_write haligned 0 image.headerBytes
    (Segment.write 0 (Segment.finish image.headerArea image.beforeDtb)
      [image.dtbPart] ++ (image.bootconfig ++ image.signature))
  rw [image.length_headerBytes, ← List.append_assoc (Segment.write _ _ _),
    ← Segment.write_append] at h
  exact h

/-- The walk over the parts before the DTB, in a file of any length. -/
theorem placeFront_truncated (hA : Words64 A) (n : Nat) :
    placeFront A image.header.parsed image.page n ⟨image.headerArea, []⟩ =
      match firstCut n (Segment.extents image.headerArea image.beforeDtb) with
      | some e => fail (cutOff n e)
      | none => ok ((image.beforeDtb.map Part.block).foldl Layout.advance
          ⟨image.headerArea, []⟩) := by
  have hsmall := image.small
  have hlength := image.length_bytes
  have hbefore := image.beforeDtb_le
  have hrecorded : image.header.parsed.recoveryDtboOffset.toNat ≤
      ((image.header.parsed.leadingBlocks image.page).foldl Layout.advance
        ⟨image.headerArea, []⟩).cursor := by
    rw [image.blocks_eq.2, (foldl_advance _ image.leading).1]
    exact image.recoveryDtboOffset
  rw [placeFront_put hA image.page_pos image.header.parsed_enabled.1 hrecorded,
    image.frontBlocks_eq, foldlM_put]
  rw [image.frontBlocks_eq, (foldl_advance _ image.beforeDtb).1]
  dsimp only
  omega

/-- What is behind the parts that are looked for at the cursor is accepted in a file that
    is no shorter than the DTB and the signature. -/
theorem placeBehind_inside (hA : Words64 A) {n : Nat} (hn : n < 2 ^ 64)
    (hdtb : image.dtb.length ≤ n) (hsignature : image.signature.length ≤ n) (layout : Layout)
    (hword : roundUp (layout.cursor + image.dtb.length) image.page < 2 ^ 64) :
    ∃ rest : List BootSection, (do
        let layout ← placeDtb A image.header.parsed image.page n layout
        if image.header.parsed.headerVersion ≥ 3 then
          let layout ← placeTrailer A image.header.parsed n layout
          return layout.sections
        else return layout.sections) = ok (layout.sections ++ rest) ∧
      ∀ s ∈ rest, s.kind = .dtb ∨ s.kind = .bootconfig ∨ s.kind = .signature := by
  rw [← image.dtbSize] at hdtb hword
  obtain ⟨layout', hplaced, dtbs, hdtbs, hkind⟩ := placeDtb_inside hA image.page_pos hn
    image.header.parsed_enabled.2 hdtb hword
  rw [hplaced, ok_bind]
  by_cases hversion : image.header.parsed.headerVersion ≥ 3
  · obtain ⟨final, hfinal, htrailer⟩ := placeTrailer_ok layout' hA hn
      (image.signatureSize.trans_le hsignature)
    refine ⟨dtbs ++ trailer layout'.cursor n image.header.parsed.signatureSize.toNat, ?_, ?_⟩
    · rw [if_pos hversion, hfinal, ok_bind, htrailer, hdtbs, List.append_assoc, pure_eq]
    · intro s hs
      rcases List.mem_append.mp hs with hs | hs
      · exact Or.inl (hkind s hs)
      · exact Or.inr (trailer_kind s hs)
  · refine ⟨dtbs, ?_, fun s hs => Or.inl (hkind s hs)⟩
    rw [if_neg hversion, hdtbs, pure_eq]

end BootImage

/-- **A boot image that was cut off** inside its kernel, ramdisk, second stage or
    recovery DTBO is refused with the first of them that is cut; where none is, and the
    file is longer than the DTB and the signature, they are all found. -/
theorem bootImage_truncated (A : Arith) (image : BootImage) (hA : Words64 A) (n : Nat)
    (hn : n ≤ image.bytes.length) :
    let extents := Segment.extents image.headerArea image.beforeDtb
    let run := bootSections A image.header.parsed (UInt64.ofNat n)
    (∀ e, firstCut n extents = some e → run = fail (cutOff n e)) ∧
      (firstCut n extents = none → image.dtb.length ≤ n → image.signature.length ≤ n →
        ∃ sections rest, run = ok sections ∧
          sections.map BootSection.extent = extents ++ rest ∧
          (∀ e ∈ rest, e.1 = .dtb ∨ e.1 = .bootconfig ∨ e.1 = .signature) ∧
          Segment.Holds (image.bytes.take n) extents (Segment.contents image.beforeDtb)) := by
  intro extents run
  have hsmall := image.small
  have hlength := image.length_bytes
  have hbefore := image.beforeDtb_le
  have hword : n < 2 ^ 64 := by omega
  have hrun : run = _ := image.bootSections_eq hword
  rw [image.placeFront_truncated hA n] at hrun
  constructor
  · intro e he
    rw [hrun, show firstCut n (Segment.extents image.headerArea image.beforeDtb) = some e from he]
    rfl
  · intro hnone hdtb hsignature
    rw [show firstCut n (Segment.extents image.headerArea image.beforeDtb) = none from hnone]
      at hrun
    obtain ⟨hcursor, hsections⟩ := foldl_advance ⟨image.headerArea, []⟩ image.beforeDtb
    generalize (image.beforeDtb.map Part.block).foldl Layout.advance ⟨image.headerArea, []⟩ =
      layout at hrun hcursor hsections
    have hrounded : roundUp (layout.cursor + image.dtb.length) image.page < 2 ^ 64 := by
      rw [hcursor]
      have hle := (roundUp_le_iff image.page_pos image.page_dvd_cursor).mpr hbefore
      exact Nat.lt_of_le_of_lt hle (by omega)
    obtain ⟨rest, hbehind, hkind⟩ :=
      image.placeBehind_inside hA hword hdtb hsignature layout hrounded
    refine ⟨_, rest.map BootSection.extent, hrun.trans hbehind, ?_, ?_,
      image.holds_beforeDtb.take (finish_le_of_firstCut hnone)⟩
    · rw [List.map_append, hsections]
      rfl
    · intro e he
      obtain ⟨s, hs, rfl⟩ := List.mem_map.mp he
      exact hkind s hs

/-- The image loses the last byte of its recovery DTBO, or only that of its DTB. -/
theorem bootImage_truncated_small :
    bootSections (.wrapping 64) smallImage.header.parsed (UInt64.ofNat 3073) =
        fail (.sectionOutOfBounds .recoveryDtbo 3072 2 3073) ∧
      ∃ sections, bootSections (.wrapping 64) smallImage.header.parsed (UInt64.ofNat 3584) =
        ok sections := by
  have hlength : smallImage.bytes.length = 4096 := by decide +kernel
  have hcut := bootImage_truncated (.wrapping 64) smallImage (by decide) 3073 (by omega)
  have hwhole := bootImage_truncated (.wrapping 64) smallImage (by decide) 3584 (by omega)
  refine ⟨hcut.1 (.recoveryDtbo, ⟨3072, 2⟩) (by decide +kernel), ?_⟩
  obtain ⟨sections, rest, hrun, -⟩ := hwhole.2 (by decide +kernel) (by decide) (by decide)
  exact ⟨sections, hrun⟩

/-! ### Vendor boot images -/

namespace VendorImage

variable (image : VendorImage) {A : Arith} {n : Nat}

theorem pushBootconfig_cut {layout : Layout} (hcursor : layout.cursor = image.bootconfigStart)
    (hsize : 0 < image.bootconfig.length)
    (hcut : n < image.bootconfigStart + image.bootconfig.length) :
    (if 0 < image.header.parsed.bootconfigSize then
        layout.push n ⟨.bootconfig, layout.cursor, image.header.parsed.bootconfigSize.toNat⟩
      else return layout) =
      fail (cutOff n (.bootconfig, ⟨image.bootconfigStart, image.bootconfig.length⟩)) := by
  have hfits := image.bootconfig_fits
  have hsmall := image.small
  have hpos : 0 < image.header.parsed.bootconfigSize := by
    rw [UInt32.lt_iff_toNat_lt, image.bootconfigSize]
    exact hsize
  have hsum : checkedAdd 64 image.bootconfigStart image.bootconfig.length =
      some (image.bootconfigStart + image.bootconfig.length) :=
    checkedAdd_eq_some.mpr ⟨by omega, rfl⟩
  rw [if_pos hpos, hcursor, image.bootconfigSize, Layout.push, validateSection, hsum]
  dsimp only
  rw [if_pos hcut]
  rfl

theorem pushBootconfig_truncated {layout : Layout} (hn : n < 2 ^ 64)
    (hcursor : layout.cursor = image.bootconfigStart) :
    let extents := Segment.extents image.bootconfigStart [image.bootconfigPart]
    let run : Fallible LayoutError Layout :=
      if 0 < image.header.parsed.bootconfigSize then
        layout.push n ⟨.bootconfig, layout.cursor, image.header.parsed.bootconfigSize.toNat⟩
      else return layout
    (∀ e, firstCut n extents = some e → run = fail (cutOff n e)) ∧
      (firstCut n extents = none → ∃ layout' : Layout, run = ok layout' ∧
        layout'.sections.map BootSection.extent =
          layout.sections.map BootSection.extent ++ extents) := by
  intro extents run
  by_cases hsize : 0 < image.bootconfig.length
  · have hextents : extents =
        [(.bootconfig, ⟨image.bootconfigStart, image.bootconfig.length⟩)] :=
      if_pos (show 0 < image.bootconfigPart.data.length from hsize)
    rw [hextents]
    by_cases hcut : n < image.bootconfigStart + image.bootconfig.length
    · constructor
      · intro e he
        cases (firstCut_cons_of_lt hcut []).symm.trans he
        exact image.pushBootconfig_cut hcursor hsize hcut
      · intro hnone
        cases (firstCut_cons_of_lt hcut []).symm.trans hnone
    · constructor
      · intro e he
        cases (firstCut_cons_of_le (Nat.not_lt.mp hcut) []).symm.trans he
      · intro _
        rw [← hextents]
        exact image.pushBootconfig_ok hn hcursor fun _ => Nat.not_lt.mp hcut
  · have hextents : extents = [] :=
      if_neg (show ¬ 0 < image.bootconfigPart.data.length from hsize)
    constructor
    · intro e he
      rw [hextents] at he
      cases he
    · intro _
      exact image.pushBootconfig_ok hn hcursor fun h => absurd h hsize

/-- The sections as the code looks for them. -/
def lookedFor : List (BootSectionKind × Region) :=
  Segment.extents image.headerArea (image.leading image.page) ++
    Segment.extents image.bootconfigStart [image.bootconfigPart]

theorem placeVendor_truncated (hA : Words64 A) (hn : n < 2 ^ 64) :
    let header := image.header.parsed
    let run := placeVendor A image.page n header.vendorRamdiskSize header.dtbSize
      header.ramdiskTableSize header.bootconfigSize ⟨image.headerArea, []⟩
    (∀ e, firstCut n image.lookedFor = some e → run = fail (cutOff n e)) ∧
      (firstCut n image.lookedFor = none → ∃ layout : Layout, run = ok layout ∧
        layout.sections.map BootSection.extent = image.lookedFor) := by
  intro header run
  obtain ⟨hcursor, hsections⟩ := foldl_advance ⟨image.headerArea, []⟩ (image.leading 4)
  have hrun : run = _ := image.placeVendor_put hA n
  have hsplit : firstCut n image.lookedFor =
      (firstCut n (Segment.extents image.headerArea (image.leading 4))).or
        (firstCut n (Segment.extents image.bootconfigStart [image.bootconfigPart])) :=
    List.find?_append
  rw [foldlM_put] at hrun
  generalize ((image.leading 4).map Part.block).foldl Layout.advance ⟨image.headerArea, []⟩ =
    layout at hrun hcursor hsections
  rw [hsplit]
  cases hfirst : firstCut n (Segment.extents image.headerArea (image.leading 4)) with
  | some e =>
    dsimp only at hrun
    rw [hfirst] at hrun
    refine ⟨?_, by simp⟩
    rintro e' he'
    cases he'
    exact hrun
  | none =>
    dsimp only at hrun
    rw [hfirst] at hrun
    dsimp only at hrun
    rw [ok_bind] at hrun
    rw [Option.none_or]
    obtain ⟨hcut, hwhole⟩ := image.pushBootconfig_truncated hn hcursor
    constructor
    · intro e he
      exact hrun.trans (hcut e he)
    · intro hnone
      obtain ⟨layout', hpush, hlayout⟩ := hwhole hnone
      refine ⟨layout', hrun.trans hpush, ?_⟩
      rw [hlayout, hsections]
      rfl

end VendorImage

/-- **A vendor boot image that was cut off** is refused with the first section that is cut,
    as the code looks for it; where none is, all are found, and the parts before the
    bootconfig are whole. -/
theorem vendorImage_truncated (A : Arith) (image : VendorImage) (hA : Words64 A) (n : Nat)
    (hn : n ≤ image.bytes.length) :
    let h := image.header.parsed
    let run := vendorSections A h.headerVersion h.headerSize h.pageSize h.vendorRamdiskSize
      h.dtbSize h.ramdiskTableSize h.bootconfigSize (UInt64.ofNat n)
    (∀ e, firstCut n image.lookedFor = some e → run = fail (cutOff n e)) ∧
      (firstCut n image.lookedFor = none →
        (∃ sections, run = ok sections ∧
          sections.map BootSection.extent = image.lookedFor) ∧
        Segment.Holds (image.bytes.take n)
          (Segment.extents image.headerArea (image.leading image.page))
          (Segment.contents (image.leading image.page))) := by
  intro h run
  have hword := Nat.lt_of_le_of_lt hn image.small
  have hrun : run = _ := image.vendorSections_eq hword
  obtain ⟨hcut, hwhole⟩ := image.placeVendor_truncated hA hword
  constructor
  · intro e he
    rw [hrun, hcut e he]
    rfl
  · intro hnone
    obtain ⟨layout, hplaced, hlayout⟩ := hwhole hnone
    rw [hplaced, ok_bind] at hrun
    have hparts := finish_le_of_firstCut hnone
    refine ⟨⟨layout.sections, hrun, hlayout⟩, image.holds_leading.take ?_⟩
    intro e he
    exact hparts e (List.mem_append_left _ he)

/-- The image ends inside its ramdisk table, or behind the bootconfig. -/
theorem vendorImage_truncated_small :
    let h := smallVendorImage.header.parsed
    let run := fun n : Nat => vendorSections (.wrapping 64) h.headerVersion h.headerSize h.pageSize
      h.vendorRamdiskSize h.dtbSize h.ramdiskTableSize h.bootconfigSize (UInt64.ofNat n)
    run 3581 = fail (.sectionOutOfBounds .vendorRamdiskTable 3072 510 3581) ∧
      ∃ sections, run 3586 = ok sections := by
  have hlength : 3586 ≤ smallVendorImage.bytes.length := by decide +kernel
  have hcut := vendorImage_truncated (.wrapping 64) smallVendorImage (by decide) 3581 (by omega)
  have hwhole := vendorImage_truncated (.wrapping 64) smallVendorImage (by decide) 3586 hlength
  refine ⟨hcut.1 (.vendorRamdiskTable, ⟨3072, 510⟩) (by decide +kernel), ?_⟩
  obtain ⟨⟨sections, hrun, -⟩, -⟩ := hwhole.2 (by decide +kernel)
  exact ⟨sections, hrun⟩

end ImgTools
