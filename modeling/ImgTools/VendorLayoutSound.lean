import ImgTools.BootLayoutSound

/-!
# A vendor boot layout is sound

`laidOut` puts blocks one behind the other over the natural numbers: it is what the
cursor of `vendor_sections` stands for. Its sections keep their order and do not
overlap, whatever the blocks are. The code either returns these sections, each
inside the source, or an error.
-/

namespace ImgTools

open Exec Fallible Alignment

/-- A section to be laid out, and the alignment of what follows it. -/
structure Block where
  alignment : Nat
  kind : BootSectionKind
  size : Nat
deriving DecidableEq, Repr

def Block.entry (b : Block) : BootSectionKind × Nat := (b.kind, b.size)

/-- The blocks that are not empty, one behind the other from `cursor` on. -/
def laidOut : Nat → List Block → List BootSection
  | _, [] => []
  | cursor, b :: blocks =>
    if 0 < b.size then
      ⟨b.kind, cursor, b.size⟩ :: laidOut (roundUp (cursor + b.size) b.alignment) blocks
    else laidOut cursor blocks

section LaidOut

variable {cursor : Nat} {b : Block} {blocks : List Block}

theorem laidOut_cons_of_pos (h : 0 < b.size) :
    laidOut cursor (b :: blocks) =
      ⟨b.kind, cursor, b.size⟩ :: laidOut (roundUp (cursor + b.size) b.alignment) blocks :=
  if_pos h

theorem laidOut_cons_of_empty (h : ¬ 0 < b.size) :
    laidOut cursor (b :: blocks) = laidOut cursor blocks :=
  if_neg h

/-- One section for each block that is not empty, in the order of the blocks. -/
theorem laidOut_entries (cursor : Nat) (blocks : List Block) :
    (laidOut cursor blocks).map BootSection.entry =
      (blocks.map Block.entry).filter fun d => 0 < d.2 := by
  induction blocks generalizing cursor with
  | nil => rfl
  | cons b blocks ih =>
    rw [List.map_cons]
    by_cases hsize : 0 < b.size
    · have hkept : decide (0 < b.entry.2) = true := decide_eq_true hsize
      rw [laidOut_cons_of_pos hsize, List.map_cons, ih, List.filter_cons, if_pos hkept]
      rfl
    · have hdropped : ¬ decide (0 < b.entry.2) = true := fun h => hsize (of_decide_eq_true h)
      rw [laidOut_cons_of_empty hsize, ih, List.filter_cons, if_neg hdropped]

theorem laidOut_size_pos (cursor : Nat) (blocks : List Block) :
    ∀ s ∈ laidOut cursor blocks, 0 < s.size := by
  intro s hs
  have hentry : s.entry ∈ (laidOut cursor blocks).map BootSection.entry := List.mem_map_of_mem hs
  rw [laidOut_entries] at hentry
  exact of_decide_eq_true (List.mem_filter.mp hentry).2

/-- Each section starts at or after the end of the one before it. -/
theorem laidOut_ascending (cursor : Nat) (blocks : List Block)
    (halignments : ∀ b ∈ blocks, 0 < b.alignment) :
    Region.Ascending cursor ((laidOut cursor blocks).map BootSection.region) := by
  induction blocks generalizing cursor with
  | nil => trivial
  | cons b blocks ih =>
    have hrest := ih (roundUp (cursor + b.size) b.alignment)
      fun c hc => halignments c (List.mem_cons_of_mem b hc)
    by_cases hsize : 0 < b.size
    · rw [laidOut_cons_of_pos hsize, List.map_cons]
      constructor
      · exact Nat.le_refl cursor
      · exact hrest.mono (le_roundUp (halignments b List.mem_cons_self) _)
    · rw [laidOut_cons_of_empty hsize]
      exact ih cursor fun c hc => halignments c (List.mem_cons_of_mem b hc)

theorem laidOut_apart {low : Nat} (hlow : low ≤ cursor)
    (halignments : ∀ b ∈ blocks, 0 < b.alignment) :
    Region.Apart low ((laidOut cursor blocks).map BootSection.region) := by
  have hsize : ∀ r ∈ (laidOut cursor blocks).map BootSection.region, 0 < r.size := by
    intro r hr
    obtain ⟨s, hs, rfl⟩ := List.mem_map.mp hr
    exact laidOut_size_pos cursor blocks s hs
  apply (Region.apart_iff_ascending hsize).mpr
  exact (laidOut_ascending cursor blocks halignments).mono hlow

end LaidOut

/-! ### The code lays out the same sections -/

/-- The layout holds the sections of `all` before those of `rest`, each inside the source. -/
structure Layout.Reaches (sourceSize : Nat) (all : List BootSection) (rest : List Block)
    (layout : Layout) : Prop where
  sections : layout.sections ++ laidOut layout.cursor rest = all
  bounded : ∀ s ∈ layout.sections, s.offset + s.size ≤ sourceSize

section Code

variable {sourceSize : Nat} {all : List BootSection} {rest : List Block} {layout : Layout}

theorem Layout.Reaches.skip {b : Block} (h : layout.Reaches sourceSize all (b :: rest))
    (hsize : ¬ 0 < b.size) : layout.Reaches sourceSize all rest where
  sections := by rw [← h.sections, laidOut_cons_of_empty hsize]
  bounded := h.bounded

theorem Layout.Reaches.place {b : Block} (h : layout.Reaches sourceSize all (b :: rest))
    (hsize : 0 < b.size) (hfit : layout.cursor + b.size ≤ sourceSize) :
    Layout.Reaches sourceSize all rest
      ⟨roundUp (layout.cursor + b.size) b.alignment,
        layout.sections ++ [⟨b.kind, layout.cursor, b.size⟩]⟩ where
  sections := by
    rw [← h.sections, laidOut_cons_of_pos hsize, List.append_assoc]
    rfl
  bounded := by
    intro s hs
    rcases List.mem_append.mp hs with hs | hs
    · exact h.bounded s hs
    · rw [List.mem_singleton.mp hs]
      exact hfit

/-- The bootconfig leaves the cursor where it is, since nothing follows it. -/
theorem Layout.Reaches.push {b : Block} (h : layout.Reaches sourceSize all [b])
    (hsize : 0 < b.size) (hfit : layout.cursor + b.size ≤ sourceSize) :
    Layout.Reaches sourceSize all []
      ⟨layout.cursor, layout.sections ++ [⟨b.kind, layout.cursor, b.size⟩]⟩ where
  sections := (h.place hsize hfit).sections
  bounded := (h.place hsize hfit).bounded

theorem placeNext_reaches (hsource : sourceSize < 2 ^ 64) {alignment : Nat}
    (halignment : 0 < alignment) {kind : BootSectionKind} {size : UInt32}
    (h : layout.Reaches sourceSize all (⟨alignment, kind, size.toNat⟩ :: rest)) :
    Steady Words64 (fun A => layout.placeNext A alignment sourceSize kind size)
      (Layout.Reaches sourceSize all rest) := by
  refine .ite (fun hsize => ?_) (fun hsize => ?_)
  · refine .bind (validateSection_steady _) fun s hs => ?_
    obtain ⟨rfl, hfit⟩ := hs
    refine .bind (.add (fits_of_le hsource hfit)) fun finish hfinish => ?_
    refine .bind (.ofExcept LayoutError.binary _) fun cursor hcursor => ?_
    rw [hfinish, alignUp_eq_ok halignment (Nat.lt_of_le_of_lt hfit hsource)] at hcursor
    apply Steady.ok
    rw [hcursor.1]
    exact h.place (UInt32.lt_iff_toNat_lt.mp hsize) hfit
  · exact .ok (h.skip fun hpos => hsize (UInt32.lt_iff_toNat_lt.mpr hpos))

def vendorDeclared (vendorRamdiskSize dtbSize tableSize bootconfigSize : UInt32) :
    List (BootSectionKind × Nat) :=
  [(.vendorRamdisk, vendorRamdiskSize.toNat), (.vendorDtb, dtbSize.toNat),
    (.vendorRamdiskTable, tableSize.toNat), (.bootconfig, bootconfigSize.toNat)]

def vendorBlocks (page : Nat) (vendorRamdiskSize dtbSize tableSize bootconfigSize : UInt32) :
    List Block :=
  [⟨page, .vendorRamdisk, vendorRamdiskSize.toNat⟩, ⟨page, .vendorDtb, dtbSize.toNat⟩,
    ⟨4, .vendorRamdiskTable, tableSize.toNat⟩, ⟨1, .bootconfig, bootconfigSize.toNat⟩]

theorem placeVendor_reaches (hsource : sourceSize < 2 ^ 64) {page : Nat} (hpage : 0 < page)
    {vendorRamdiskSize dtbSize tableSize bootconfigSize : UInt32}
    (h : layout.Reaches sourceSize all
      (vendorBlocks page vendorRamdiskSize dtbSize tableSize bootconfigSize)) :
    Steady Words64 (fun A => placeVendor A page sourceSize vendorRamdiskSize dtbSize tableSize
        bootconfigSize layout)
      (Layout.Reaches sourceSize all []) := by
  refine .bind (placeNext_reaches hsource hpage h) fun ramdisk h => ?_
  refine .bind (placeNext_reaches hsource hpage h) fun dtb h => ?_
  refine .bind (placeNext_reaches hsource (by decide) h) fun table h => ?_
  refine .ite (fun hsize => ?_) (fun hsize => ?_)
  · refine .bind (validateSection_steady _) fun s hs => ?_
    obtain ⟨rfl, hfit⟩ := hs
    exact .ok (h.push (UInt32.lt_iff_toNat_lt.mp hsize) hfit)
  · exact .ok (h.skip fun hpos => hsize (UInt32.lt_iff_toNat_lt.mpr hpos))

end Code

/-! ### The whole layout -/

theorem vendorBlocks_entries (page : Nat)
    (vendorRamdiskSize dtbSize tableSize bootconfigSize : UInt32) :
    (vendorBlocks page vendorRamdiskSize dtbSize tableSize bootconfigSize).map Block.entry =
      vendorDeclared vendorRamdiskSize dtbSize tableSize bootconfigSize :=
  rfl

def vendorLaidOut (headerSize pageSizeValue vendorRamdiskSize dtbSize tableSize
    bootconfigSize : UInt32) : List BootSection :=
  laidOut (roundUp headerSize.toNat pageSizeValue.toNat)
    (vendorBlocks pageSizeValue.toNat vendorRamdiskSize dtbSize tableSize bootconfigSize)

/-- What `vendor_sections` promises of the sections it returns: those of `declared`
    that are not empty, in order, one behind the other between the header and the
    end of the source. -/
structure VendorSound (headerSize sourceSize : Nat) (declared : List (BootSectionKind × Nat))
    (sections : List BootSection) : Prop where
  entries : sections.map BootSection.entry = declared.filter fun d => 0 < d.2
  apart : Region.Apart headerSize (sections.map BootSection.region)
  bounded : ∀ s ∈ sections, s.offset + s.size ≤ sourceSize

theorem vendorLaidOut_sound {headerSize pageSizeValue vendorRamdiskSize dtbSize tableSize
    bootconfigSize : UInt32} {sourceSize : Nat} (hpage : 0 < pageSizeValue.toNat)
    (hbounded : ∀ s ∈ vendorLaidOut headerSize pageSizeValue vendorRamdiskSize dtbSize tableSize
      bootconfigSize, s.offset + s.size ≤ sourceSize) :
    VendorSound headerSize.toNat sourceSize
      (vendorDeclared vendorRamdiskSize dtbSize tableSize bootconfigSize)
      (vendorLaidOut headerSize pageSizeValue vendorRamdiskSize dtbSize tableSize
        bootconfigSize) where
  entries := by
    rw [vendorLaidOut, laidOut_entries, vendorBlocks_entries]
  apart := by
    apply laidOut_apart (le_roundUp hpage _)
    simp [vendorBlocks, hpage]
  bounded := hbounded

/-- The code returns the sections that are laid out, when it returns any. -/
theorem vendorSections_steady (headerVersion headerSize pageSizeValue vendorRamdiskSize dtbSize
    tableSize bootconfigSize : UInt32) (sourceSize : UInt64) :
    Steady Words64 (fun A => vendorSections A headerVersion headerSize pageSizeValue
        vendorRamdiskSize dtbSize tableSize bootconfigSize sourceSize)
      fun sections => 0 < pageSizeValue.toNat ∧ 4 ∣ pageSizeValue.toNat ∧
        sections = vendorLaidOut headerSize pageSizeValue vendorRamdiskSize dtbSize tableSize
          bootconfigSize ∧
        ∀ s ∈ sections, s.offset + s.size ≤ sourceSize.toNat := by
  refine .bind (.ofExcept id _) fun page hpage => ?_
  obtain ⟨rfl, hlarge, hfour⟩ := pageSize_eq_ok hpage
  have hpos : 0 < pageSizeValue.toNat := Nat.lt_of_lt_of_le (by decide) hlarge
  refine .bind (.failIf _) fun _ _ => ?_
  refine .bind (.ofExcept LayoutError.binary _) fun cursor hcursor => ?_
  obtain rfl := alignUp_headerSize hpos hcursor
  have hstart : Layout.Reaches sourceSize.toNat
      (vendorLaidOut headerSize pageSizeValue vendorRamdiskSize dtbSize tableSize bootconfigSize)
      (vendorBlocks pageSizeValue.toNat vendorRamdiskSize dtbSize tableSize bootconfigSize)
      ⟨roundUp headerSize.toNat pageSizeValue.toNat, []⟩ := ⟨rfl, by simp⟩
  refine .bind (placeVendor_reaches sourceSize.toNat_lt hpos hstart) fun layout hlayout => ?_
  apply Steady.ok
  refine ⟨hpos, hfour, ?_, hlayout.bounded⟩
  rw [← hlayout.sections]
  exact (List.append_nil _).symm

/-- **`vendor_sections` is sound.** For every header version, sizes and source size
    the code ends alike under every arithmetic of 64 bits, so that no unchecked sum
    overflows; what it returns are the declared sections, in order, disjoint and
    inside the source; and it rejects an image whose sections do not all fit. -/
theorem vendorSections_sound (headerVersion headerSize pageSizeValue vendorRamdiskSize dtbSize
    tableSize bootconfigSize : UInt32) (sourceSize : UInt64) :
    ∃ result,
      (∀ A, Words64 A → vendorSections A headerVersion headerSize pageSizeValue vendorRamdiskSize
        dtbSize tableSize bootconfigSize sourceSize = Outcome.done result) ∧
      (∀ sections, result = .ok sections →
        VendorSound headerSize.toNat sourceSize.toNat
          (vendorDeclared vendorRamdiskSize dtbSize tableSize bootconfigSize) sections) ∧
      ((∃ s ∈ vendorLaidOut headerSize pageSizeValue vendorRamdiskSize dtbSize tableSize
          bootconfigSize, sourceSize.toNat < s.offset + s.size) →
        ∃ e, result = .error e) := by
  obtain ⟨result, hrun, hresult⟩ := vendorSections_steady headerVersion headerSize pageSizeValue
    vendorRamdiskSize dtbSize tableSize bootconfigSize sourceSize
  refine ⟨result, hrun, ?_, ?_⟩
  · intro sections hok
    obtain ⟨hpage, -, rfl, hbounded⟩ := hresult sections hok
    exact vendorLaidOut_sound hpage hbounded
  · rintro ⟨s, hs, houtside⟩
    cases result with
    | error e => exact ⟨e, rfl⟩
    | ok sections =>
      obtain ⟨-, -, rfl, hbounded⟩ := hresult sections rfl
      exact absurd (hbounded s hs) (Nat.not_le.mpr houtside)

/-- An image whose table leaves the bootconfig inside a page is still sound. -/
example : vendorLaidOut 2128 4096 0 0 108 50 =
    [⟨.vendorRamdiskTable, 4096, 108⟩, ⟨.bootconfig, 4204, 50⟩] := by decide

end ImgTools
