import ImgTools.Segments
import ImgTools.BootLayoutModern
import ImgTools.VendorLayoutSound

/-!
# Blocks that fit are placed

The blocks of a layout, run forwards. `Layout.advance` is what a block at the cursor
does to the layout; while the cursor behind a block is inside the source, the code
does the same and rejects nothing. The sections that result are the extents of the
blocks as segments.
-/

namespace ImgTools

open Exec Fallible Alignment

abbrev Part := Segment BootSectionKind UInt8

def Part.block (p : Part) : Block := ⟨p.alignment, p.key, p.data.length⟩

def BootSection.extent (s : BootSection) : BootSectionKind × Region := (s.kind, s.region)

def Layout.advance (layout : Layout) (b : Block) : Layout :=
  if 0 < b.size then
    ⟨roundUp (layout.cursor + b.size) b.alignment,
      layout.sections ++ [⟨b.kind, layout.cursor, b.size⟩]⟩
  else layout

/-- The layout behind a block at the cursor, if a file of `sourceSize` bytes has the
    block as a whole. -/
def Layout.put (sourceSize : Nat) (layout : Layout) (b : Block) : Fallible LayoutError Layout :=
  if 0 < b.size ∧ sourceSize < layout.cursor + b.size then
    fail (.sectionOutOfBounds b.kind layout.cursor b.size sourceSize)
  else ok (layout.advance b)

section Advance

variable {layout : Layout} {b : Block}

theorem Layout.advance_of_pos (h : 0 < b.size) :
    layout.advance b = ⟨roundUp (layout.cursor + b.size) b.alignment,
      layout.sections ++ [⟨b.kind, layout.cursor, b.size⟩]⟩ := if_pos h

theorem Layout.advance_of_empty (h : ¬ 0 < b.size) : layout.advance b = layout := if_neg h

theorem Layout.le_advance (h : 0 < b.alignment) :
    layout.cursor + b.size ≤ (layout.advance b).cursor := by
  by_cases hsize : 0 < b.size
  · rw [advance_of_pos hsize]
    exact le_roundUp h _
  · rw [advance_of_empty hsize]
    omega

theorem Layout.advance_cursor (p : Part) :
    (layout.advance p.block).cursor = Segment.next layout.cursor p := by
  by_cases hsize : 0 < p.data.length
  · rw [advance_of_pos (b := p.block) hsize, Segment.next_of_pos hsize]
    rfl
  · rw [advance_of_empty (b := p.block) hsize, Segment.next_of_empty hsize]

theorem foldl_advance (layout : Layout) (parts : List Part) :
    ((parts.map Part.block).foldl Layout.advance layout).cursor =
        Segment.finish layout.cursor parts ∧
      ((parts.map Part.block).foldl Layout.advance layout).sections.map BootSection.extent =
        layout.sections.map BootSection.extent ++ Segment.extents layout.cursor parts := by
  induction parts generalizing layout with
  | nil => exact ⟨rfl, (List.append_nil _).symm⟩
  | cons p parts ih =>
    obtain ⟨hcursor, hsections⟩ := ih (layout.advance p.block)
    rw [List.map_cons, List.foldl_cons, hcursor, hsections, Layout.advance_cursor]
    refine ⟨rfl, ?_⟩
    by_cases hsize : 0 < p.data.length
    · rw [Layout.advance_of_pos (b := p.block) hsize, Segment.extents, if_pos hsize,
        List.map_append, List.append_assoc]
      rfl
    · rw [Layout.advance_of_empty (b := p.block) hsize, Segment.extents, if_neg hsize,
        Segment.next_of_empty hsize]

end Advance

/-! ### The code puts -/

section Code

variable {A : Arith} {sourceSize alignment : Nat} {layout : Layout}

/-- A block that fits is put where it is. -/
theorem put_of_le {b : Block} (hfit : layout.cursor + b.size ≤ sourceSize) :
    layout.put sourceSize b = ok (layout.advance b) :=
  if_neg fun h => Nat.not_lt.mpr hfit h.2

section Words

variable (hA : Words64 A) (halignment : 0 < alignment)

include hA halignment

/-- The block of a section at the cursor, when the cursor behind it is a word. -/
theorem place_put {kind : BootSectionKind} {size : Nat} (hsize : 0 < size)
    (hword : (layout.advance ⟨alignment, kind, size⟩).cursor < 2 ^ 64) :
    layout.place A alignment sourceSize kind layout.cursor size =
      layout.put sourceSize ⟨alignment, kind, size⟩ := by
  have hend : layout.cursor + size < 2 ^ 64 :=
    Nat.lt_of_le_of_lt (Layout.le_advance (b := ⟨alignment, kind, size⟩) halignment) hword
  have hsum : checkedAdd 64 layout.cursor size = some (layout.cursor + size) :=
    checkedAdd_eq_some.mpr ⟨hend, rfl⟩
  rw [Layout.place, validateSection, Layout.put, hsum]
  dsimp only
  by_cases hcut : sourceSize < layout.cursor + size
  · rw [if_pos hcut, if_pos ⟨hsize, hcut⟩]
    rfl
  · rw [if_neg hcut, if_neg (fun h => hcut h.2)]
    rw [Layout.advance_of_pos (b := ⟨alignment, kind, size⟩) hsize] at hword ⊢
    have haligned : alignUp (layout.cursor + size) alignment =
        .ok (roundUp (layout.cursor + size) alignment) := by
      rw [alignUp_eq_ok halignment hend]
      exact ⟨rfl, hword⟩
    have hadd : A.add layout.cursor size = .done (layout.cursor + size) :=
      Arith.add_of_fits (Arith.Fits.mono hA (by omega))
    simp only [ofExcept_ok, ok_bind, hadd, lift_done, haligned, pure_eq]

/-- The block of a section that is enabled, at an offset that is the cursor. -/
theorem placeEnabled_put {enabled : Prop} [Decidable enabled] {kind : BootSectionKind}
    {offset : Nat} {size : UInt32} (henabled : 0 < size → enabled)
    (hoffset : 0 < size → offset = layout.cursor)
    (hword : (layout.advance ⟨alignment, kind, size.toNat⟩).cursor < 2 ^ 64) :
    (if enabled ∧ 0 < size then layout.place A alignment sourceSize kind offset size.toNat
      else return layout) = layout.put sourceSize ⟨alignment, kind, size.toNat⟩ := by
  by_cases hsize : 0 < size
  · rw [if_pos ⟨henabled hsize, hsize⟩, hoffset hsize]
    exact place_put hA halignment (UInt32.lt_iff_toNat_lt.mp hsize) hword
  · have hempty : ¬ 0 < size.toNat := fun hpos => hsize (UInt32.lt_iff_toNat_lt.mpr hpos)
    rw [if_neg (fun h => hsize h.2), Layout.put, if_neg (fun h => hempty h.1),
      Layout.advance_of_empty hempty]
    rfl

theorem placeNext_put {kind : BootSectionKind} {size : UInt32}
    (hword : (layout.advance ⟨alignment, kind, size.toNat⟩).cursor < 2 ^ 64) :
    layout.placeNext A alignment sourceSize kind size =
      layout.put sourceSize ⟨alignment, kind, size.toNat⟩ := by
  have htrue : 0 < size → True := fun _ => trivial
  have h : (if True ∧ 0 < size then
      layout.place A alignment sourceSize kind layout.cursor size.toNat else return layout) =
      layout.put sourceSize ⟨alignment, kind, size.toNat⟩ :=
    placeEnabled_put hA halignment htrue (fun _ => rfl) hword
  rw [Layout.placeNext]
  simpa only [true_and] using h

end Words

section Fits

variable (hsource : sourceSize < 2 ^ 64)

include hsource

theorem validateSection_ok {s : BootSection} (hfit : s.offset + s.size ≤ sourceSize) :
    validateSection s sourceSize = .ok s := by
  have hsum : checkedAdd 64 s.offset s.size = some (s.offset + s.size) :=
    checkedAdd_eq_some.mpr ⟨Nat.lt_of_le_of_lt hfit hsource, rfl⟩
  rw [validateSection, hsum]
  exact if_neg (Nat.not_lt.mpr hfit)

theorem push_ok {s : BootSection} (hfit : s.offset + s.size ≤ sourceSize) :
    layout.push sourceSize s = ok { layout with sections := layout.sections ++ [s] } := by
  rw [Layout.push, validateSection_ok hsource hfit]
  rfl

end Fits

end Code

/-! ### The parts of a boot image -/

/-- A recovery DTBO that is not recorded behind the cursor goes to the cursor. -/
theorem recoveryDtboOffset_of_le {header : BootHeader} {cursor : Nat}
    (h : header.recoveryDtboOffset.toNat ≤ cursor) (sourceSize : Nat) :
    recoveryDtboOffset header sourceSize cursor = cursor := by
  simp only [recoveryDtboOffset]
  split
  · split
    · next hrecorded => exact Nat.le_antisymm h hrecorded.1
    · rfl
  · rfl

theorem dtbOffset_of_le {header : BootHeader} {sourceSize cursor : Nat}
    (hsource : sourceSize < 2 ^ 64) (h : cursor + header.dtbSize.toNat ≤ sourceSize) :
    dtbOffset header sourceSize cursor = cursor := by
  have hadd : checkedAdd 64 cursor header.dtbSize.toNat = some (cursor + header.dtbSize.toNat) :=
    checkedAdd_eq_some.mpr ⟨Nat.lt_of_le_of_lt h hsource, rfl⟩
  simp only [dtbOffset, hadd]
  exact if_pos (by simpa using h)

def BootHeader.leadingBlocks (header : BootHeader) (page : Nat) : List Block :=
  [⟨page, .kernel, header.kernelSize.toNat⟩, ⟨page, .ramdisk, header.ramdiskSize.toNat⟩,
    ⟨page, .second, header.secondSize.toNat⟩]

def BootHeader.blocks (header : BootHeader) (page : Nat) : List Block :=
  header.leadingBlocks page ++
    [⟨page, .recoveryDtbo, header.recoveryDtboSize.toNat⟩, ⟨page, .dtb, header.dtbSize.toNat⟩]

def BootHeader.frontBlocks (header : BootHeader) (page : Nat) : List Block :=
  header.leadingBlocks page ++ [⟨page, .recoveryDtbo, header.recoveryDtboSize.toNat⟩]

theorem BootHeader.blocks_eq_front (header : BootHeader) (page : Nat) :
    header.blocks page = header.frontBlocks page ++ [⟨page, .dtb, header.dtbSize.toNat⟩] := rfl

section Parts

variable {A : Arith} {header : BootHeader} {page sourceSize : Nat} {layout : Layout}

theorem Layout.put_bind_congr {α : Type} {b : Block} {f g : Layout → Fallible LayoutError α}
    (h : f (layout.advance b) = g (layout.advance b)) :
    (layout.put sourceSize b >>= f) = layout.put sourceSize b >>= g := by
  unfold put
  split
  · rfl
  · exact h

theorem Layout.cursor_le_advance {b : Block} (h : 0 < b.alignment) :
    layout.cursor ≤ (layout.advance b).cursor := (Nat.le_add_right _ _).trans (le_advance h)

theorem Layout.cursor_le_foldl {blocks : List Block} (h : ∀ b ∈ blocks, 0 < b.alignment) :
    layout.cursor ≤ (blocks.foldl Layout.advance layout).cursor := by
  induction blocks generalizing layout with
  | nil => exact Nat.le_refl _
  | cons b blocks ih =>
    exact (cursor_le_advance (h b List.mem_cons_self)).trans
      (ih fun c hc => h c (List.mem_cons_of_mem b hc))

theorem foldlM_put_ok {blocks : List Block} (halignment : ∀ b ∈ blocks, 0 < b.alignment)
    (hfit : (blocks.foldl Layout.advance layout).cursor ≤ sourceSize) :
    blocks.foldlM (Layout.put sourceSize) layout = ok (blocks.foldl Layout.advance layout) := by
  induction blocks generalizing layout with
  | nil => rfl
  | cons b blocks ih =>
    have hrest : ∀ c ∈ blocks, 0 < c.alignment := fun c hc =>
      halignment c (List.mem_cons_of_mem b hc)
    have hend := (Layout.le_advance (halignment b List.mem_cons_self)).trans
      ((Layout.cursor_le_foldl hrest).trans hfit)
    rw [List.foldlM_cons, put_of_le hend, ok_bind]
    exact ih hrest hfit

/-- The walk over the parts before the DTB puts one after the other. -/
theorem placeFront_put (hA : Words64 A) (hpage : 0 < page)
    (hdtbo : 0 < header.recoveryDtboSize → header.headerVersion ≥ 1)
    (hrecorded : header.recoveryDtboOffset.toNat ≤
      ((header.leadingBlocks page).foldl Layout.advance layout).cursor)
    (hword : ((header.frontBlocks page).foldl Layout.advance layout).cursor < 2 ^ 64) :
    placeFront A header page sourceSize layout =
      (header.frontBlocks page).foldlM (Layout.put sourceSize) layout := by
  simp only [BootHeader.frontBlocks, BootHeader.leadingBlocks, List.cons_append, List.nil_append,
    List.foldl_cons, List.foldl_nil] at hrecorded hword ⊢
  have hsecond := Nat.lt_of_le_of_lt (Layout.cursor_le_advance
    (b := ⟨page, .recoveryDtbo, header.recoveryDtboSize.toNat⟩) hpage) hword
  have hramdisk := Nat.lt_of_le_of_lt (Layout.cursor_le_advance
    (b := ⟨page, .second, header.secondSize.toNat⟩) hpage) hsecond
  have hkernel := Nat.lt_of_le_of_lt (Layout.cursor_le_advance
    (b := ⟨page, .ramdisk, header.ramdiskSize.toNat⟩) hpage) hramdisk
  rw [placeFront, placeNext_put hA hpage hkernel, List.foldlM_cons]
  refine Layout.put_bind_congr ?_
  rw [placeNext_put hA hpage hramdisk, List.foldlM_cons]
  refine Layout.put_bind_congr ?_
  rw [placeNext_put hA hpage hsecond, List.foldlM_cons]
  refine Layout.put_bind_congr ?_
  rw [placeEnabled_put hA hpage hdtbo (fun _ => recoveryDtboOffset_of_le hrecorded _) hword,
    List.foldlM_cons]
  exact (bind_pure _).symm

/-- The two walks over the parts, run on an image that has room for them. -/
theorem placeParts_ok (hA : Words64 A) (hsource : sourceSize < 2 ^ 64) (hpage : 0 < page)
    (hdtbo : 0 < header.recoveryDtboSize → header.headerVersion ≥ 1)
    (hdtb : 0 < header.dtbSize → header.headerVersion ≥ 2)
    (hrecorded : header.recoveryDtboOffset.toNat ≤
      ((header.leadingBlocks page).foldl Layout.advance layout).cursor)
    (hfit : ((header.blocks page).foldl Layout.advance layout).cursor ≤ sourceSize) :
    (do
      let layout ← placeFront A header page sourceSize layout
      placeDtb A header page sourceSize layout) =
      ok ((header.blocks page).foldl Layout.advance layout) := by
  rw [header.blocks_eq_front, List.foldl_append] at hfit ⊢
  have hend := (Layout.le_advance (b := ⟨page, .dtb, header.dtbSize.toNat⟩) hpage).trans hfit
  have hfront := (Nat.le_add_right _ _).trans hend
  have haligned : ∀ b ∈ header.frontBlocks page, 0 < b.alignment := by
    simp [BootHeader.frontBlocks, BootHeader.leadingBlocks, hpage]
  rw [placeFront_put hA hpage hdtbo hrecorded (Nat.lt_of_le_of_lt hfront hsource),
    foldlM_put_ok haligned hfront, ok_bind, placeDtb, placeEnabled_put hA hpage hdtb
      (fun _ => dtbOffset_of_le hsource hend) (Nat.lt_of_le_of_lt hfit hsource)]
  exact put_of_le hend

/-- The trailer of a source that has room for the signature. -/
theorem placeTrailer_ok (layout : Layout) (hA : Words64 A) (hsource : sourceSize < 2 ^ 64)
    (hle : header.signatureSize.toNat ≤ sourceSize) :
    ∃ layout', placeTrailer A header sourceSize layout = ok layout' ∧
      layout'.sections =
        layout.sections ++ trailer layout.cursor sourceSize header.signatureSize.toNat := by
  have hsub : ∀ {a b : Nat}, b ≤ a → a ≤ sourceSize → A.sub a b = .done (a - b) :=
    fun hle ha => Arith.sub_of_le (fits_of_le hsource ha A hA) hle
  have hsignature : ∀ layout : Layout, ∃ layout', placeSignature sourceSize
      (sourceSize - header.signatureSize.toNat) header.signatureSize.toNat layout = ok layout' := by
    intro layout
    unfold placeSignature
    split
    · exact ⟨_, push_ok hsource (by simp only; omega)⟩
    · exact ⟨layout, rfl⟩
  have hrun : ∃ layout', placeTrailer A header sourceSize layout = ok layout' := by
    rw [placeTrailer, failIf, if_neg (Nat.not_lt.mpr hle), ok_bind, hsub hle (Nat.le_refl _),
      lift_done, ok_bind]
    by_cases hroom : layout.cursor < sourceSize - header.signatureSize.toNat
    · rw [if_pos hroom, hsub (Nat.le_of_lt hroom) (Nat.sub_le _ _), lift_done, ok_bind,
        push_ok hsource (by simp only; omega), ok_bind]
      exact hsignature _
    · rw [if_neg hroom]
      exact hsignature layout
  obtain ⟨layout', hlayout⟩ := hrun
  exact ⟨layout', hlayout, (placeTrailer_eq_ok hA hsource hlayout).2⟩

end Parts

end ImgTools
