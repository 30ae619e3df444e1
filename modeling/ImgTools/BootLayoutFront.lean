import ImgTools.BootLayout

/-!
# Placing boot sections

What the blocks of a layout do when none of them is rejected. `Front` follows
the cursor and the end of the last section with the sizes alone; it says where
the format puts the sections, and `placeFront_shows` that the code puts them
there.
-/

namespace ImgTools

open Exec Fallible Alignment

/-- The arithmetic of a debug or a release build on `u64`, or the integers. -/
def Words64 (A : Arith) : Prop := A.Fits (2 ^ 64 - 1)

instance (A : Arith) : Decidable (Words64 A) := inferInstanceAs (Decidable (A.Fits _))

theorem validateSection_eq_ok {s s' : BootSection} {sourceSize : Nat}
    (h : validateSection s sourceSize = .ok s') :
    s' = s ∧ s.offset + s.size ≤ sourceSize := by
  unfold validateSection at h
  split at h
  · simp at h
  · next finish hsum =>
    obtain ⟨-, rfl⟩ := checkedAdd_eq_some.mp hsum
    split at h
    · simp at h
    · next hfit =>
      simp only [Except.ok.injEq] at h
      exact ⟨h.symm, Nat.not_lt.mp hfit⟩

theorem two_pow_dvd_of_isPowerOfTwo {p k : Nat} (hp : isPowerOfTwo p) (hk : 2 ^ k ≤ p) :
    2 ^ k ∣ p := by
  have hlog : 2 ^ p.log2 = p := by simpa [isPowerOfTwo] using hp
  rw [← hlog] at hk ⊢
  exact Nat.pow_dvd_pow 2 ((Nat.pow_le_pow_iff_right (by decide)).mp hk)

theorem pageSize_eq_ok {value : UInt32} {page : Nat} (h : pageSize value = .ok page) :
    page = value.toNat ∧ 512 ≤ page ∧ 4 ∣ page := by
  simp only [pageSize] at h
  split at h
  · simp at h
  · next hvalid =>
    obtain ⟨hlarge, hpower⟩ := not_or.mp hvalid
    obtain rfl := Except.ok.inj h
    exact ⟨rfl, Nat.not_lt.mp hlarge,
      two_pow_dvd_of_isPowerOfTwo (k := 2) (not_not.mp hpower) (by omega)⟩

section Place

variable {A : Arith} {alignment sourceSize : Nat} {layout layout' : Layout}

/-- A block that is not rejected appends its section and aligns the cursor after it. -/
theorem place_eq_ok (hA : Words64 A) (halignment : 0 < alignment) (hsource : sourceSize < 2 ^ 64)
    {kind : BootSectionKind} {offset size : Nat}
    (h : layout.place A alignment sourceSize kind offset size = ok layout') :
    offset + size ≤ sourceSize ∧
      layout' = ⟨roundUp (offset + size) alignment, layout.sections ++ [⟨kind, offset, size⟩]⟩ := by
  unfold Layout.place at h
  obtain ⟨s, hvalid, h⟩ := bind_eq_ok.mp h
  obtain ⟨rfl, hfit⟩ := validateSection_eq_ok (ofExcept_eq_ok.mp hvalid)
  have hfit' : offset + size ≤ sourceSize := hfit
  obtain ⟨finish, hfinish, h⟩ := bind_eq_ok.mp h
  rw [lift_eq_ok, Arith.add_of_fits (Arith.Fits.mono hA (Nat.le_sub_one_of_lt
    (Nat.lt_of_le_of_lt hfit hsource))), Outcome.done.injEq] at hfinish
  obtain ⟨cursor, hcursor, h⟩ := bind_eq_ok.mp h
  rw [ofExcept_eq_ok, ← hfinish,
    alignUp_eq_ok halignment (Nat.lt_of_le_of_lt hfit hsource)] at hcursor
  refine ⟨hfit', ?_⟩
  rw [pure_eq, ok_inj] at h
  rw [← h, hcursor.1]

theorem push_eq_ok {s : BootSection} (h : layout.push sourceSize s = ok layout') :
    s.offset + s.size ≤ sourceSize ∧
      layout' = { layout with sections := layout.sections ++ [s] } := by
  unfold Layout.push at h
  obtain ⟨s', hvalid, hdone⟩ := bind_eq_ok.mp h
  obtain ⟨rfl, hfit⟩ := validateSection_eq_ok (ofExcept_eq_ok.mp hvalid)
  rw [pure_eq, ok_inj] at hdone
  exact ⟨hfit, hdone.symm⟩

/-- Where the next section goes, and where the last one ended. -/
structure Front where
  cursor : Nat
  finish : Nat

def Front.after (alignment offset size : Nat) : Front :=
  ⟨roundUp (offset + size) alignment, offset + size⟩

def Front.next (alignment size : Nat) (f : Front) : Front :=
  if 0 < size then Front.after alignment f.cursor size else f

/-- The sections of a layout do not overlap, none starts before `low`, and the
    cursor and the end of the last one are those of `f`. -/
structure Layout.Shows (low : Nat) (layout : Layout) (f : Front) : Prop where
  cursor : layout.cursor = f.cursor
  finish : Region.lastFinish low (layout.sections.map BootSection.region) = f.finish
  ascending : Region.Ascending low (layout.sections.map BootSection.region)
  sizes : ∀ s ∈ layout.sections, 0 < s.size
  behind : f.finish ≤ f.cursor

theorem Layout.shows_start (low : Nat) : Layout.Shows low ⟨low, []⟩ ⟨low, low⟩ :=
  ⟨rfl, rfl, trivial, by simp, Nat.le_refl low⟩

theorem Layout.Shows.append {low : Nat} {f : Front} (h : layout.Shows low f)
    (halignment : 0 < alignment) {s : BootSection} (hsize : 0 < s.size)
    (hbehind : f.finish ≤ s.offset) :
    Layout.Shows low ⟨roundUp (s.offset + s.size) alignment, layout.sections ++ [s]⟩
      (Front.after alignment s.offset s.size) where
  cursor := rfl
  finish := by
    rw [List.map_append, List.map_singleton, Region.lastFinish_append]
    rfl
  ascending := by
    rw [List.map_append, List.map_singleton, Region.ascending_append, h.finish]
    exact ⟨h.ascending, hbehind⟩
  sizes := by
    intro t ht
    rcases List.mem_append.mp ht with ht | ht
    · exact h.sizes t ht
    · rw [List.mem_singleton.mp ht]
      exact hsize
  behind := le_roundUp halignment _

theorem placeNext_shows (hA : Words64 A) (halignment : 0 < alignment)
    (hsource : sourceSize < 2 ^ 64) {kind : BootSectionKind} {size : UInt32} {low : Nat}
    {f : Front} (hshows : layout.Shows low f)
    (h : layout.placeNext A alignment sourceSize kind size = ok layout') :
    layout'.Shows low (f.next alignment size.toNat) := by
  unfold Layout.placeNext at h
  unfold Front.next
  by_cases hsize : 0 < size
  · rw [if_pos hsize] at h
    have hsize' : 0 < size.toNat := UInt32.lt_iff_toNat_lt.mp hsize
    obtain ⟨-, rfl⟩ := place_eq_ok hA halignment hsource h
    rw [if_pos hsize', hshows.cursor]
    exact hshows.append halignment (s := ⟨kind, f.cursor, size.toNat⟩) hsize' hshows.behind
  · rw [if_neg hsize, pure_eq, ok_inj] at h
    have hsize' : ¬ 0 < size.toNat := fun hpos => hsize (UInt32.lt_iff_toNat_lt.mpr hpos)
    rw [if_neg hsize', ← h]
    exact hshows

end Place

/-- The recovery DTBO is never placed before the cursor. -/
theorem le_recoveryDtboOffset (header : BootHeader) (sourceSize cursor : Nat) :
    cursor ≤ recoveryDtboOffset header sourceSize cursor := by
  simp only [recoveryDtboOffset]
  split
  · split
    · next hrecorded => exact hrecorded.1
    · exact Nat.le_refl cursor
  · exact Nat.le_refl cursor

/-- The sections before the DTB: the kernel, the ramdisk and the second stage one
    after the other, and the recovery DTBO at its offset. -/
def front (header : BootHeader) (page sourceSize : Nat) : Front :=
  let start := roundUp header.headerSize.toNat page
  let f := (((⟨start, start⟩ : Front).next page header.kernelSize.toNat).next page
    header.ramdiskSize.toNat).next page header.secondSize.toNat
  if 1 ≤ header.headerVersion ∧ 0 < header.recoveryDtboSize then
    Front.after page (recoveryDtboOffset header sourceSize f.cursor)
      header.recoveryDtboSize.toNat
  else f

theorem placeFront_shows {A : Arith} {header : BootHeader} {page sourceSize : Nat}
    {layout' : Layout} (hA : Words64 A) (hpage : 0 < page) (hsource : sourceSize < 2 ^ 64)
    (h : placeFront A header page sourceSize ⟨roundUp header.headerSize.toNat page, []⟩ =
      ok layout') :
    layout'.Shows (roundUp header.headerSize.toNat page) (front header page sourceSize) := by
  unfold placeFront at h
  obtain ⟨kernel, hkernel, h⟩ := bind_eq_ok.mp h
  obtain ⟨ramdisk, hramdisk, h⟩ := bind_eq_ok.mp h
  obtain ⟨second, hsecond, h⟩ := bind_eq_ok.mp h
  have hshows := placeNext_shows hA hpage hsource (placeNext_shows hA hpage hsource
    (placeNext_shows hA hpage hsource (Layout.shows_start _) hkernel) hramdisk) hsecond
  unfold front
  split at h
  · next hdtbo =>
    have hsize : 0 < header.recoveryDtboSize.toNat := UInt32.lt_iff_toNat_lt.mp hdtbo.2
    obtain ⟨-, rfl⟩ := place_eq_ok hA hpage hsource h
    simp only [ge_iff_le] at hdtbo
    rw [if_pos hdtbo, hshows.cursor]
    exact hshows.append hpage (s := ⟨.recoveryDtbo, _, _⟩) hsize
      (hshows.behind.trans (le_recoveryDtboOffset _ _ _))
  · next hdtbo =>
    simp only [ge_iff_le] at hdtbo
    rw [pure_eq, ok_inj] at h
    rw [if_neg hdtbo, ← h]
    exact hshows

/-- The first position that a header leaves to the sections. -/
theorem alignUp_headerSize {headerSize : UInt32} {page cursor : Nat} (hpage : 0 < page)
    (h : alignUp headerSize.toNat page = .ok cursor) : cursor = roundUp headerSize.toNat page := by
  have hsize := headerSize.toNat_lt
  exact ((alignUp_eq_ok hpage (by omega)).mp h).1

end ImgTools
