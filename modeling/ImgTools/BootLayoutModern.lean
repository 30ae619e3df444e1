import ImgTools.BootLayoutFront

/-!
# The layout of version 3 and 4 images

The kernel and the ramdisk are placed forwards from the header and the signature
backwards from the end of the source; what lies between is the bootconfig. A
section of the front and the bytes up to the page boundary behind it make a
slot. While the two walks have not crossed, the slots tile the image, and
`bootSections_modern_iff` shows that this is the only case in which they do.
-/

namespace ImgTools

open Exec Fallible Alignment

/-- The kernel and the ramdisk are followed by alignment bytes. -/
def BootSection.Padded (s : BootSection) : Prop := s.kind = .kernel ∨ s.kind = .ramdisk

instance (s : BootSection) : Decidable s.Padded := inferInstanceAs (Decidable (_ ∨ _))

def BootSection.padding (s : BootSection) : Region :=
  ⟨s.offset + s.size, roundUp (s.offset + s.size) 4096 - (s.offset + s.size)⟩

/-- The header area and the sections are disjoint and in increasing order, and every
    byte of the source lies in one of them or is an alignment byte behind the kernel
    or the ramdisk, which lies in none. -/
structure TilesImage (headerArea : Nat) (sections : List BootSection) (sourceSize : Nat) :
    Prop where
  apart : Region.Apart 0 (⟨0, headerArea⟩ :: sections.map BootSection.region)
  covered : ∀ byte, byte < sourceSize →
    (∃ r ∈ (⟨0, headerArea⟩ : Region) :: sections.map BootSection.region, byte ∈ r) ∨
      ∃ s ∈ sections, s.Padded ∧ byte ∈ s.padding
  padding : ∀ s ∈ sections, s.Padded → s.padding.size < 4096 ∧ ∀ byte ∈ s.padding,
    ∀ r ∈ (⟨0, headerArea⟩ : Region) :: sections.map BootSection.region, byte ∉ r

/-! ### Slots -/

def BootSection.slot (s : BootSection) : Region :=
  if s.Padded then ⟨s.offset, roundUp (s.offset + s.size) 4096 - s.offset⟩ else s.region

theorem le_roundUp_page (n : Nat) : n ≤ roundUp n 4096 := le_roundUp (by decide) n

@[simp] theorem slot_start (s : BootSection) : s.slot.start = s.offset := by
  unfold BootSection.slot
  split <;> rfl

theorem slot_finish (s : BootSection) :
    s.slot.finish = if s.Padded then roundUp (s.offset + s.size) 4096 else s.offset + s.size := by
  have hle := le_roundUp_page (s.offset + s.size)
  unfold BootSection.slot Region.finish
  split
  · simp only
    omega
  · rfl

theorem region_finish_le_slot (s : BootSection) : s.region.finish ≤ s.slot.finish := by
  have hle := le_roundUp_page (s.offset + s.size)
  rw [slot_finish]
  split
  · exact hle
  · exact Nat.le_refl _

/-- A byte of a slot is a byte of the section or an alignment byte behind it. -/
theorem mem_slot {s : BootSection} {byte : Nat} (h : byte ∈ s.slot) :
    byte ∈ s.region ∨ (s.Padded ∧ byte ∈ s.padding) := by
  rw [Region.mem_iff, slot_start, slot_finish] at h
  by_cases hbyte : byte < s.offset + s.size
  · exact Or.inl ⟨h.1, hbyte⟩
  · by_cases hpadded : s.Padded
    · rw [if_pos hpadded] at h
      refine Or.inr ⟨hpadded, by simp only [BootSection.padding]; omega, ?_⟩
      simp only [BootSection.padding, Region.finish]
      omega
    · rw [if_neg hpadded] at h
      exact absurd h.2 hbyte

theorem mem_slot_of_mem_padding {s : BootSection} (hpadded : s.Padded) {byte : Nat}
    (h : byte ∈ s.padding) : byte ∈ s.slot ∧ s.region.finish ≤ byte := by
  obtain ⟨hlow, hhigh⟩ := h
  simp only [BootSection.padding, Region.finish] at hlow hhigh
  refine ⟨⟨by rw [slot_start]; omega, ?_⟩, hlow⟩
  rw [slot_finish, if_pos hpadded]
  omega

theorem mem_slot_of_mem_region {s : BootSection} {byte : Nat} (h : byte ∈ s.region) :
    byte ∈ s.slot :=
  ⟨by rw [slot_start]; exact h.1, Nat.lt_of_lt_of_le h.2 (region_finish_le_slot s)⟩

theorem ascending_of_slots {low : Nat} {sections : List BootSection}
    (h : Region.Ascending low (sections.map BootSection.slot)) :
    Region.Ascending low (sections.map BootSection.region) := by
  induction sections generalizing low with
  | nil => trivial
  | cons s sections ih =>
    obtain ⟨hlow, hrest⟩ := h
    rw [slot_start] at hlow
    exact ⟨hlow, (ih hrest).mono (region_finish_le_slot s)⟩

theorem slot_size_pos {s : BootSection} (hsize : 0 < s.size) : 0 < s.slot.size := by
  have hle := region_finish_le_slot s
  have hstart := slot_start s
  unfold Region.finish at hle
  simp only [BootSection.region] at hle
  omega

theorem padding_size_lt (s : BootSection) : s.padding.size < 4096 := by
  have hlt := roundUp_lt_add (a := 4096) (by decide) (s.offset + s.size)
  simp only [BootSection.padding]
  omega

/-- In slots that do not overlap no section has a byte of another one's slot. -/
theorem not_mem_region_of_mem_slot {low : Nat} {sections : List BootSection}
    (hsizes : ∀ s ∈ sections, 0 < s.size)
    (hascending : Region.Ascending low (sections.map BootSection.slot)) {s t : BootSection}
    (hs : s ∈ sections) (ht : t ∈ sections) (hne : s ≠ t) {byte : Nat} (hbyte : byte ∈ s.slot) :
    byte ∉ t.region := by
  intro hmem
  have hslots : ∀ r ∈ sections.map BootSection.slot, 0 < r.size := by
    intro r hr
    obtain ⟨u, hu, rfl⟩ := List.mem_map.mp hr
    exact slot_size_pos (hsizes u hu)
  have hdisjoint := ((Region.apart_iff_ascending hslots).mpr hascending).disjoint
  rw [List.pairwise_map] at hdisjoint
  have hsymm : Std.Symm fun s t : BootSection => s.slot.Disjoint t.slot :=
    ⟨fun s t h p hp => h p hp.symm⟩
  exact hdisjoint.forall hs ht hne byte ⟨hbyte, mem_slot_of_mem_region hmem⟩

/-- Slots that tile the image behind the header area make the sections tile it. -/
theorem tilesImage_of_slots {headerArea sourceSize : Nat} {sections : List BootSection}
    (hheader : 0 < headerArea) (hsizes : ∀ s ∈ sections, 0 < s.size)
    (htiling : Region.Tiling headerArea (sections.map BootSection.slot))
    (hend : sourceSize ≤ Region.lastFinish headerArea (sections.map BootSection.slot)) :
    TilesImage headerArea sections sourceSize where
  apart := by
    rw [Region.apart_iff_ascending]
    · exact ⟨Nat.le_refl 0, ascending_of_slots (by simpa [Region.finish] using htiling.ascending)⟩
    · intro r hr
      rcases List.mem_cons.mp hr with rfl | hr
      · exact hheader
      · obtain ⟨s, hs, rfl⟩ := List.mem_map.mp hr
        exact hsizes s hs
  covered := by
    intro byte hbyte
    by_cases hin : byte < headerArea
    · exact Or.inl ⟨_, List.mem_cons_self, Nat.zero_le _, by simpa [Region.finish] using hin⟩
    obtain ⟨r, hr, hmem⟩ := htiling.covers (Nat.not_lt.mp hin) (Nat.lt_of_lt_of_le hbyte hend)
    obtain ⟨s, hs, rfl⟩ := List.mem_map.mp hr
    rcases mem_slot hmem with hregion | hpadding
    · exact Or.inl ⟨s.region, List.mem_cons_of_mem _ (List.mem_map_of_mem hs), hregion⟩
    · exact Or.inr ⟨s, hs, hpadding⟩
  padding := by
    intro s hs hpadded
    refine ⟨padding_size_lt s, ?_⟩
    intro byte hbyte r hr hmem
    obtain ⟨hslot, hbehind⟩ := mem_slot_of_mem_padding hpadded hbyte
    rcases List.mem_cons.mp hr with rfl | hr
    · have habove := htiling.ascending.above s.slot (List.mem_map_of_mem hs)
      have hlow := hslot.1
      have hhigh := hmem.2
      simp only [Region.finish] at hhigh
      omega
    · obtain ⟨t, ht, rfl⟩ := List.mem_map.mp hr
      by_cases hsame : s = t
      · have hhigh := hmem.2
        rw [← hsame] at hhigh
        omega
      · exact not_mem_region_of_mem_slot hsizes htiling.ascending hs ht hsame hslot hmem

/-! ### The two walks -/

/-- The slots of the front tile the image from the header area up to the cursor. -/
structure Layout.Tiled (headerArea : Nat) (layout : Layout) : Prop where
  tiling : Region.Tiling headerArea (layout.sections.map BootSection.slot)
  cursor : Region.lastFinish headerArea (layout.sections.map BootSection.slot) = layout.cursor
  sizes : ∀ s ∈ layout.sections, 0 < s.size

theorem Layout.Tiled.append {headerArea : Nat} {layout : Layout} (h : layout.Tiled headerArea)
    {s : BootSection} (hsize : 0 < s.size) (hstart : s.offset = layout.cursor) :
    Layout.Tiled headerArea ⟨s.slot.finish, layout.sections ++ [s]⟩ where
  tiling := by
    rw [List.map_append, List.map_singleton, Region.tiling_append, slot_start, h.cursor]
    exact ⟨h.tiling, hstart⟩
  cursor := by rw [List.map_append, List.map_singleton, Region.lastFinish_append]
  sizes := by
    intro t ht
    rcases List.mem_append.mp ht with ht | ht
    · exact h.sizes t ht
    · rw [List.mem_singleton.mp ht]
      exact hsize

section Modern

variable {A : Arith} {header : BootHeader} {sourceSize headerArea : Nat} {layout layout' : Layout}

theorem placeNext_tiled (hA : Words64 A) (hsource : sourceSize < 2 ^ 64) {kind : BootSectionKind}
    {size : UInt32} (hkind : kind = .kernel ∨ kind = .ramdisk) (htiled : layout.Tiled headerArea)
    (h : layout.placeNext A 4096 sourceSize kind size = ok layout') :
    layout'.Tiled headerArea := by
  unfold Layout.placeNext at h
  split at h
  · next hsize =>
    obtain ⟨-, rfl⟩ := place_eq_ok hA (by decide) hsource h
    have hpadded : BootSection.Padded ⟨kind, layout.cursor, size.toNat⟩ := hkind
    have happend := htiled.append (s := ⟨kind, layout.cursor, size.toNat⟩)
      (UInt32.lt_iff_toNat_lt.mp hsize) rfl
    rwa [slot_finish, if_pos hpadded] at happend
  · rw [pure_eq, ok_inj] at h
    exact h ▸ htiled

theorem placeNext_zero {kind : BootSectionKind}
    (h : layout.placeNext A 4096 sourceSize kind 0 = ok layout') : layout' = layout := by
  rw [Layout.placeNext, if_neg (by decide), pure_eq, ok_inj] at h
  exact h.symm

/-- The front of a modern image is the kernel and the ramdisk. -/
theorem placeFront_tiled (hA : Words64 A) (hsource : sourceSize < 2 ^ 64) (hmodern : header.Modern)
    (htiled : layout.Tiled headerArea)
    (h : placeFront A header 4096 sourceSize layout = ok layout') : layout'.Tiled headerArea := by
  unfold placeFront at h
  obtain ⟨kernel, hkernel, h⟩ := bind_eq_ok.mp h
  obtain ⟨ramdisk, hramdisk, h⟩ := bind_eq_ok.mp h
  obtain ⟨second, hsecond, h⟩ := bind_eq_ok.mp h
  rw [hmodern.secondSize] at hsecond
  rw [placeNext_zero hsecond, hmodern.recoveryDtboSize, if_neg (by simp), pure_eq, ok_inj] at h
  rw [← h]
  exact placeNext_tiled hA hsource (Or.inr rfl)
    (placeNext_tiled hA hsource (Or.inl rfl) htiled hkernel) hramdisk

def trailer (cursor sourceSize signatureSize : Nat) : List BootSection :=
  (if cursor < sourceSize - signatureSize then
    [⟨.bootconfig, cursor, sourceSize - signatureSize - cursor⟩] else []) ++
  if 0 < signatureSize then [⟨.signature, sourceSize - signatureSize, signatureSize⟩] else []

theorem placeSignature_eq_ok {offset size : Nat}
    (h : placeSignature sourceSize offset size layout = ok layout') :
    layout'.sections = layout.sections ++
      if 0 < size then [⟨.signature, offset, size⟩] else [] := by
  unfold placeSignature at h
  split at h
  · next hsize => rw [(push_eq_ok h).2, if_pos hsize]
  · next hsize =>
    rw [pure_eq, ok_inj] at h
    rw [if_neg hsize, List.append_nil, h]

theorem placeTrailer_eq_ok (hA : Words64 A) (hsource : sourceSize < 2 ^ 64)
    (h : placeTrailer A header sourceSize layout = ok layout') :
    header.signatureSize.toNat ≤ sourceSize ∧
    layout'.sections =
      layout.sections ++ trailer layout.cursor sourceSize header.signatureSize.toNat := by
  have hsub : ∀ {a b : Nat}, b ≤ a → a ≤ sourceSize → A.sub a b = .done (a - b) :=
    fun hle ha => Arith.sub_of_le (Arith.Fits.mono hA (by omega)) hle
  unfold placeTrailer at h
  obtain ⟨_, hfits, h⟩ := bind_eq_ok.mp h
  have hle : header.signatureSize.toNat ≤ sourceSize := Nat.not_lt.mp (failIf_eq_ok.mp hfits)
  refine ⟨hle, ?_⟩
  obtain ⟨offset, hoffset, h⟩ := bind_eq_ok.mp h
  rw [lift_eq_ok, hsub hle (Nat.le_refl _), Outcome.done.injEq] at hoffset
  subst hoffset
  unfold trailer
  by_cases hroom : layout.cursor < sourceSize - header.signatureSize.toNat
  · rw [if_pos hroom] at h ⊢
    obtain ⟨size, hsize, h⟩ := bind_eq_ok.mp h
    rw [lift_eq_ok, hsub (Nat.le_of_lt hroom) (Nat.sub_le _ _), Outcome.done.injEq] at hsize
    subst hsize
    obtain ⟨middle, hpush, h⟩ := bind_eq_ok.mp h
    obtain ⟨-, rfl⟩ := push_eq_ok hpush
    rw [placeSignature_eq_ok h, List.append_assoc]
  · rw [if_neg hroom] at h ⊢
    rw [placeSignature_eq_ok h, List.nil_append]

/-- A section without alignment bytes, behind a layout whose cursor is its offset. -/
theorem Layout.Tiled.append_unpadded (htiled : layout.Tiled headerArea) {kind : BootSectionKind}
    {offset size : Nat} (hsize : 0 < size) (hstart : offset = layout.cursor)
    (hpadded : ¬ BootSection.Padded ⟨kind, offset, size⟩) :
    Layout.Tiled headerArea ⟨offset + size, layout.sections ++ [⟨kind, offset, size⟩]⟩ := by
  have happend := htiled.append (s := ⟨kind, offset, size⟩) hsize hstart
  rwa [slot_finish, if_neg hpadded] at happend

/-- While the signature does not start before the cursor, the slots go on to the end
    of the source. -/
theorem trailer_tiled (htiled : layout.Tiled headerArea) {signatureSize : Nat}
    (hle : signatureSize ≤ sourceSize)
    (hapart : signatureSize = 0 ∨ layout.cursor ≤ sourceSize - signatureSize) :
    ∃ layout' : Layout, layout'.Tiled headerArea ∧ sourceSize ≤ layout'.cursor ∧
      layout'.sections = layout.sections ++ trailer layout.cursor sourceSize signatureSize := by
  have hbootconfig : ∀ offset size, ¬ BootSection.Padded ⟨.bootconfig, offset, size⟩ := by
    simp [BootSection.Padded]
  have hsignature : ∀ offset size, ¬ BootSection.Padded ⟨.signature, offset, size⟩ := by
    simp [BootSection.Padded]
  unfold trailer
  by_cases hroom : layout.cursor < sourceSize - signatureSize
  · have hmiddle := htiled.append_unpadded (Nat.sub_pos_of_lt hroom) rfl (hbootconfig _ _)
    have hcursor : layout.cursor + (sourceSize - signatureSize - layout.cursor) =
        sourceSize - signatureSize := by omega
    rw [hcursor] at hmiddle
    rw [if_pos hroom]
    by_cases hsize : 0 < signatureSize
    · have hfinal := hmiddle.append_unpadded hsize rfl (hsignature _ _)
      refine ⟨_, hfinal, ?_, ?_⟩
      · simp only
        omega
      · rw [if_pos hsize, List.append_assoc]
    · refine ⟨_, hmiddle, ?_, ?_⟩
      · simp only
        omega
      · rw [if_neg hsize, List.append_nil]
  · rw [if_neg hroom, List.nil_append]
    by_cases hsize : 0 < signatureSize
    · have hstart : sourceSize - signatureSize = layout.cursor := by omega
      have hfinal := htiled.append_unpadded hsize hstart (hsignature _ _)
      refine ⟨_, hfinal, ?_, ?_⟩
      · simp only
        omega
      · rw [if_pos hsize]
    · refine ⟨layout, htiled, by omega, ?_⟩
      rw [if_neg hsize, List.append_nil]

/-- A signature that starts before the cursor meets the header, a section of the
    front or the alignment bytes behind one. -/
theorem not_tilesImage_of_crossing (htiled : layout.Tiled headerArea) {s : BootSection}
    (hsize : 0 < s.size) (hcross : s.offset < layout.cursor) :
    ¬ TilesImage headerArea (layout.sections ++ [s]) sourceSize := by
  intro h
  have hfirst : s.offset ∈ s.region :=
    ⟨Nat.le_refl _, by simp only [BootSection.region, Region.finish]; omega⟩
  have hdisjoint := h.apart.disjoint
  rw [List.map_append, List.map_singleton, ← List.cons_append, List.pairwise_append] at hdisjoint
  obtain ⟨-, -, hlast⟩ := hdisjoint
  have hnot : ∀ r ∈ (⟨0, headerArea⟩ : Region) :: layout.sections.map BootSection.region,
      s.offset ∉ r := fun r hr hmem =>
    hlast r hr s.region (List.mem_singleton_self _) s.offset ⟨hmem, hfirst⟩
  by_cases hin : s.offset < headerArea
  · exact hnot _ List.mem_cons_self ⟨Nat.zero_le _, by simpa [Region.finish] using hin⟩
  obtain ⟨r, hr, hmem⟩ := htiled.tiling.covers (Nat.not_lt.mp hin)
    (by rw [htiled.cursor]; exact hcross)
  obtain ⟨t, ht, rfl⟩ := List.mem_map.mp hr
  rcases mem_slot hmem with hregion | ⟨hpadded, hpadding⟩
  · exact hnot t.region (List.mem_cons_of_mem _ (List.mem_map_of_mem ht)) hregion
  · refine (h.padding t (List.mem_append_left _ ht) hpadded).2 s.offset hpadding s.region ?_ hfirst
    exact List.mem_cons_of_mem _ (List.mem_map_of_mem (List.mem_append_right _
      (List.mem_singleton_self s)))

/-- An accepted image holds a front that tiles the image up to the cursor, and the
    trailer behind it. -/
theorem bootSections_modern_eq_ok {source : UInt64} {sections : List BootSection}
    (hA : Words64 A) (hmodern : header.Modern) (hversion : 3 ≤ header.headerVersion)
    (h : bootSections A header source = ok sections) :
    ∃ layout : Layout, layout.Tiled (roundUp header.headerSize.toNat 4096) ∧
      layout.cursor = (front header 4096 source.toNat).cursor ∧
      header.signatureSize.toNat ≤ source.toNat ∧
      sections =
        layout.sections ++ trailer layout.cursor source.toNat header.signatureSize.toNat := by
  have hsource := source.toNat_lt
  have hpage : (0 : Nat) < 4096 := by decide
  unfold bootSections at h
  obtain ⟨page, hpage', h⟩ := bind_eq_ok.mp h
  rw [if_pos hversion, ofExcept_eq_ok, Except.ok.injEq] at hpage'
  subst hpage'
  obtain ⟨cursor, hcursor, h⟩ := bind_eq_ok.mp h
  obtain rfl := alignUp_headerSize hpage (ofExcept_eq_ok.mp hcursor)
  obtain ⟨layout, hfront, h⟩ := bind_eq_ok.mp h
  obtain ⟨layout', hdtb, h⟩ := bind_eq_ok.mp h
  rw [placeDtb, hmodern.dtbSize, if_neg (by simp), pure_eq, ok_inj] at hdtb
  subst hdtb
  rw [if_pos hversion] at h
  obtain ⟨final, htrailer, h⟩ := bind_eq_ok.mp h
  rw [pure_eq, ok_inj] at h
  obtain ⟨hle, hsections⟩ := placeTrailer_eq_ok hA hsource htrailer
  have hstart : Layout.Tiled (roundUp header.headerSize.toNat 4096)
      ⟨roundUp header.headerSize.toNat 4096, []⟩ := ⟨trivial, rfl, by simp⟩
  exact ⟨layout, placeFront_tiled hA hsource hmodern hstart hfront,
    (placeFront_shows hA hpage hsource hfront).cursor, hle, h.symm.trans hsections⟩

end Modern

/-- **The modern layout.** The header area and the sections of an accepted image tile
    it exactly when there is no signature or the signature does not start before the
    page boundary behind the kernel and the ramdisk. -/
theorem bootSections_modern_iff (A : Arith) (bytes : List UInt8) (header : BootHeader)
    (sourceSize : UInt64) (sections : List BootSection) (hA : Words64 A)
    (hparse : parseBootHeader bytes = ok header) (hversion : 3 ≤ header.headerVersion)
    (h : bootSections A header sourceSize = ok sections) :
    TilesImage (roundUp header.headerSize.toNat 4096) sections sourceSize.toNat ↔
      header.signatureSize = 0 ∨
        (front header 4096 sourceSize.toNat).cursor ≤
          sourceSize.toNat - header.signatureSize.toNat := by
  have hmodern := parseBootHeader_modern hparse hversion
  obtain ⟨layout, htiled, hcursor, hle, rfl⟩ := bootSections_modern_eq_ok hA hmodern hversion h
  have hheader : 0 < roundUp header.headerSize.toNat 4096 :=
    Nat.lt_of_lt_of_le hmodern.headerSize (le_roundUp_page _)
  have hsignature : header.signatureSize = 0 ↔ header.signatureSize.toNat = 0 :=
    UInt32.toNat_inj.symm
  rw [hsignature, ← hcursor]
  constructor
  · intro htiles
    by_contra hcross
    obtain ⟨hsize, hcross⟩ := not_or.mp hcross
    rw [trailer, if_neg (by omega), if_pos (by omega), List.nil_append] at htiles
    exact not_tilesImage_of_crossing htiled (Nat.pos_of_ne_zero hsize)
      (Nat.not_le.mp hcross) htiles
  · intro hapart
    obtain ⟨final, hfinal, hend, hsections⟩ := trailer_tiled htiled hle hapart
    rw [← hsections]
    exact tilesImage_of_slots hheader hfinal.sizes hfinal.tiling (hend.trans_eq hfinal.cursor.symm)

/-! ### A signature over the kernel -/

/-- A version 4 header with a kernel of 100 bytes and a signature of 4096. -/
def signedHeader : BootHeader where
  headerVersion := 4
  headerSize := 1584
  pageSize := 4096
  kernelSize := 100
  kernelAddr := 0
  ramdiskSize := 0
  ramdiskAddr := 0
  secondSize := 0
  secondAddr := 0
  tagsAddr := 0
  osVersionRaw := 0
  recoveryDtboSize := 0
  recoveryDtboOffset := 0
  dtbSize := 0
  dtbAddr := 0
  signatureSize := 4096

def signedHeaderBytes : List UInt8 :=
  bootMagic ++ LittleEndian.encode 4 100 ++ List.replicate 8 0 ++ LittleEndian.encode 4 1584 ++
    List.replicate 16 0 ++ LittleEndian.encode 4 4 ++ List.replicate 1536 0 ++
    LittleEndian.encode 4 4096

/-- The condition on an image with room for the signature. -/
theorem bootSections_modern_iff_room :
    TilesImage (roundUp signedHeader.headerSize.toNat 4096)
        [⟨.kernel, 4096, 100⟩, ⟨.bootconfig, 8192, 8⟩, ⟨.signature, 8200, 4096⟩] 12296 ↔
      signedHeader.signatureSize = 0 ∨
        (front signedHeader 4096 12296).cursor ≤ 12296 - signedHeader.signatureSize.toNat :=
  bootSections_modern_iff (.wrapping 64) signedHeaderBytes signedHeader 12296 _ (by decide)
    (by decide +kernel) (by decide) (by decide)

/-- In a source of 8192 bytes the signature is placed over the kernel. -/
theorem bootSections_modern_crosses :
    parseBootHeader signedHeaderBytes = ok signedHeader ∧
    bootSections (.wrapping 64) signedHeader 8192 =
      ok [⟨.kernel, 4096, 100⟩, ⟨.signature, 4096, 4096⟩] ∧
    ¬ TilesImage 4096 [⟨.kernel, 4096, 100⟩, ⟨.signature, 4096, 4096⟩] 8192 := by
  refine ⟨by decide +kernel, by decide, ?_⟩
  intro h
  have hordered := h.apart.ordered
  simp [BootSection.region] at hordered

end ImgTools
