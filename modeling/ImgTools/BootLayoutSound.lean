import ImgTools.BootLayoutFront
import ImgTools.Steady

/-!
# A boot layout loses nothing

For every header, parsed or not, `boot_sections` ends alike in a debug build, in a
release build and on the integers: each unchecked sum is bounded by the section
that was validated before it, and each unchecked difference is guarded. When it
returns sections, they are those that the header declares, each inside the source.
-/

namespace ImgTools

open Exec Fallible

def BootSection.entry (s : BootSection) : BootSectionKind × Nat := (s.kind, s.size)

/-- The sections are those of `declared` that are not empty, in order, each inside the source. -/
structure Layout.Lists (sourceSize : Nat) (declared : List (BootSectionKind × Nat))
    (layout : Layout) : Prop where
  bounded : ∀ s ∈ layout.sections, 0 < s.size ∧ s.offset + s.size ≤ sourceSize
  entries : layout.sections.map BootSection.entry = declared.filter fun d => 0 < d.2

section Blocks

variable {sourceSize : Nat} {declared : List (BootSectionKind × Nat)} {layout : Layout}

theorem Layout.Lists.append (h : layout.Lists sourceSize declared) {s : BootSection}
    (hsize : 0 < s.size) (hfit : s.offset + s.size ≤ sourceSize) {cursor : Nat} :
    Layout.Lists sourceSize (declared ++ [s.entry]) ⟨cursor, layout.sections ++ [s]⟩ where
  bounded := by
    intro t ht
    rcases List.mem_append.mp ht with ht | ht
    · exact h.bounded t ht
    · rw [List.mem_singleton.mp ht]
      exact ⟨hsize, hfit⟩
  entries := by
    have hkept : [s.entry].filter (fun d => 0 < d.2) = [s.entry] := by
      simp [BootSection.entry, hsize]
    rw [List.map_append, h.entries, List.filter_append, hkept, List.map_singleton]

theorem Layout.Lists.skip (h : layout.Lists sourceSize declared) {kind : BootSectionKind}
    {size : Nat} (hsize : size = 0) : layout.Lists sourceSize (declared ++ [(kind, size)]) where
  bounded := h.bounded
  entries := by
    rw [h.entries, List.filter_append, hsize]
    simp

theorem validateSection_steady (s : BootSection) :
    Steady Words64 (fun _ => (ofExcept id (validateSection s sourceSize) : Fallible _ _))
      fun s' => s' = s ∧ s.offset + s.size ≤ sourceSize :=
  (Steady.ofExcept id _).mono fun _ h => validateSection_eq_ok h

variable (hsource : sourceSize < 2 ^ 64)

include hsource

theorem fits_of_le {n : Nat} (hle : n ≤ sourceSize) (A : Arith) (hA : Words64 A) : A.Fits n :=
  Arith.Fits.mono hA (Nat.le_sub_one_of_lt (Nat.lt_of_le_of_lt hle hsource))

theorem place_steady (h : layout.Lists sourceSize declared) {alignment : Nat}
    {kind : BootSectionKind} {offset size : Nat} (hsize : 0 < size) :
    Steady Words64 (fun A => layout.place A alignment sourceSize kind offset size)
      (Layout.Lists sourceSize (declared ++ [(kind, size)])) := by
  refine .bind (validateSection_steady ⟨kind, offset, size⟩) fun s hs => ?_
  obtain ⟨rfl, hfit⟩ := hs
  refine .bind (.add (fits_of_le hsource hfit)) fun finish _ => ?_
  refine .bind (.ofExcept LayoutError.binary _) fun cursor _ => ?_
  exact .ok (h.append (s := ⟨kind, offset, size⟩) hsize hfit)

theorem placeNext_steady (h : layout.Lists sourceSize declared) {alignment : Nat}
    {kind : BootSectionKind} {size : UInt32} :
    Steady Words64 (fun A => layout.placeNext A alignment sourceSize kind size)
      (Layout.Lists sourceSize (declared ++ [(kind, size.toNat)])) := by
  refine .ite (fun hsize => ?_) (fun hsize => ?_)
  · exact place_steady hsource h (UInt32.lt_iff_toNat_lt.mp hsize)
  · have hzero : size.toNat = 0 :=
      Nat.eq_zero_of_not_pos fun hpos => hsize (UInt32.lt_iff_toNat_lt.mpr hpos)
    exact .ok (h.skip hzero)

end Blocks

/-! ### The sections of a header -/

def BootHeader.leading (header : BootHeader) : List (BootSectionKind × Nat) :=
  [] ++ [(.kernel, header.kernelSize.toNat)] ++ [(.ramdisk, header.ramdiskSize.toNat)] ++
    [(.second, header.secondSize.toNat)] ++
    if header.headerVersion ≥ 1 then [(.recoveryDtbo, header.recoveryDtboSize.toNat)] else []

def BootHeader.payload (header : BootHeader) : List (BootSectionKind × Nat) :=
  header.leading ++
    if header.headerVersion ≥ 2 then [(.dtb, header.dtbSize.toNat)] else []

def BootHeader.declared (header : BootHeader) : List (BootSectionKind × Nat) :=
  header.payload ++
    if header.headerVersion ≥ 3 then [(.signature, header.signatureSize.toNat)] else []

section Sections

variable {header : BootHeader} {page sourceSize : Nat} {declared : List (BootSectionKind × Nat)}
  {layout : Layout} (hsource : sourceSize < 2 ^ 64)

include hsource

theorem placeEnabled_steady (h : layout.Lists sourceSize declared) {enabled : Prop}
    [Decidable enabled] {kind : BootSectionKind} {offset : Nat} {size : UInt32} :
    Steady Words64 (fun A => if enabled ∧ 0 < size then
        layout.place A page sourceSize kind offset size.toNat else return layout)
      (Layout.Lists sourceSize
        (declared ++ if enabled then [(kind, size.toNat)] else [])) := by
  by_cases henabled : enabled
  · simp only [henabled, true_and, if_true]
    refine .ite (fun hsize => ?_) (fun hsize => ?_)
    · exact place_steady hsource h (UInt32.lt_iff_toNat_lt.mp hsize)
    · exact .ok (h.skip (Nat.eq_zero_of_not_pos fun hpos =>
        hsize (UInt32.lt_iff_toNat_lt.mpr hpos)))
  · simp only [henabled, false_and, if_false, List.append_nil]
    exact .ok h

theorem placeFront_steady (h : layout.Lists sourceSize []) :
    Steady Words64 (fun A => placeFront A header page sourceSize layout)
      (Layout.Lists sourceSize header.leading) := by
  refine .bind (placeNext_steady hsource h) fun layout h => ?_
  refine .bind (placeNext_steady hsource h) fun layout h => ?_
  refine .bind (placeNext_steady hsource h) fun layout h => ?_
  exact placeEnabled_steady hsource h

theorem placeDtb_steady (h : layout.Lists sourceSize header.leading) :
    Steady Words64 (fun A => placeDtb A header page sourceSize layout)
      (Layout.Lists sourceSize header.payload) :=
  placeEnabled_steady hsource h

end Sections

/-! ### The trailer -/

/-- The sections are those of `declared` that are not empty, in order, and at most
    one bootconfig among them, each inside the source. -/
structure Listed (sourceSize : Nat) (declared : List (BootSectionKind × Nat))
    (sections : List BootSection) : Prop where
  bounded : ∀ s ∈ sections, 0 < s.size ∧ s.offset + s.size ≤ sourceSize
  entries : (sections.filter (·.kind ≠ .bootconfig)).map BootSection.entry =
    declared.filter fun d => 0 < d.2
  atMostOne : (sections.filter (·.kind = .bootconfig)).length ≤ 1

section Trailer

variable {sourceSize : Nat} {declared : List (BootSectionKind × Nat)} {layout : Layout}

theorem Layout.Lists.kind_ne (h : layout.Lists sourceSize declared)
    (hclean : .bootconfig ∉ declared.map Prod.fst) :
    ∀ s ∈ layout.sections, s.kind ≠ .bootconfig := by
  intro s hs hkind
  have hentry : s.entry ∈ layout.sections.map BootSection.entry := List.mem_map_of_mem hs
  rw [h.entries] at hentry
  exact hclean (List.mem_map.mpr ⟨s.entry, (List.mem_filter.mp hentry).1, hkind⟩)

theorem Layout.Lists.listed (h : layout.Lists sourceSize declared)
    (hclean : .bootconfig ∉ declared.map Prod.fst) :
    Listed sourceSize declared layout.sections where
  bounded := h.bounded
  entries := by
    rw [List.filter_eq_self.mpr fun s hs => decide_eq_true (h.kind_ne hclean s hs), h.entries]
  atMostOne := by
    rw [List.filter_eq_nil_iff.mpr fun s hs => by simpa using h.kind_ne hclean s hs]
    exact Nat.zero_le _

theorem Layout.Lists.bootconfig (h : layout.Lists sourceSize declared)
    (hclean : .bootconfig ∉ declared.map Prod.fst) {offset size : Nat} (hsize : 0 < size)
    (hfit : offset + size ≤ sourceSize) :
    Listed sourceSize declared (layout.sections ++ [⟨.bootconfig, offset, size⟩]) where
  bounded := by
    intro t ht
    rcases List.mem_append.mp ht with ht | ht
    · exact h.bounded t ht
    · rw [List.mem_singleton.mp ht]
      exact ⟨hsize, hfit⟩
  entries := by
    rw [List.filter_append, List.map_append, (h.listed hclean).entries]
    simp
  atMostOne := by
    rw [List.filter_append,
      List.filter_eq_nil_iff.mpr fun s hs => by simpa using h.kind_ne hclean s hs]
    simp

theorem Listed.signature {sections : List BootSection} (h : Listed sourceSize declared sections)
    {offset size : Nat} (hsize : 0 < size) (hfit : offset + size ≤ sourceSize) :
    Listed sourceSize (declared ++ [(.signature, size)])
      (sections ++ [⟨.signature, offset, size⟩]) where
  bounded := by
    intro t ht
    rcases List.mem_append.mp ht with ht | ht
    · exact h.bounded t ht
    · rw [List.mem_singleton.mp ht]
      exact ⟨hsize, hfit⟩
  entries := by
    rw [List.filter_append, List.map_append, h.entries, List.filter_append]
    simp [BootSection.entry, hsize]
  atMostOne := by
    rw [List.filter_append]
    simpa using h.atMostOne

theorem Listed.skip {sections : List BootSection} (h : Listed sourceSize declared sections)
    {kind : BootSectionKind} {size : Nat} (hsize : size = 0) :
    Listed sourceSize (declared ++ [(kind, size)]) sections where
  bounded := h.bounded
  entries := by
    rw [h.entries, List.filter_append, hsize]
    simp
  atMostOne := h.atMostOne

theorem push_steady (s : BootSection) :
    Steady Words64 (fun _ => layout.push sourceSize s) fun layout' =>
      s.offset + s.size ≤ sourceSize ∧ layout'.sections = layout.sections ++ [s] := by
  refine .bind (validateSection_steady s) fun s' hs => ?_
  obtain ⟨rfl, hfit⟩ := hs
  exact .ok ⟨hfit, rfl⟩

theorem placeSignature_steady (h : Listed sourceSize declared layout.sections) {offset size : Nat} :
    Steady Words64 (fun _ => placeSignature sourceSize offset size layout)
      fun layout' => Listed sourceSize (declared ++ [(.signature, size)]) layout'.sections := by
  refine .ite (fun hsize => ?_) (fun hsize => ?_)
  · refine (push_steady _).mono fun layout' hpush => ?_
    rw [hpush.2]
    exact h.signature hsize hpush.1
  · exact .ok (h.skip (Nat.eq_zero_of_not_pos hsize))

theorem placeTrailer_steady {header : BootHeader} (hsource : sourceSize < 2 ^ 64)
    (h : layout.Lists sourceSize declared) (hclean : .bootconfig ∉ declared.map Prod.fst) :
    Steady Words64 (fun A => placeTrailer A header sourceSize layout) fun layout' =>
      Listed sourceSize (declared ++ [(.signature, header.signatureSize.toNat)])
        layout'.sections := by
  refine .bind (.failIf _) fun _ hroom => ?_
  refine .bind (.sub (fits_of_le hsource (Nat.le_refl _)) (Nat.not_lt.mp hroom))
    fun offset hoffset => ?_
  refine .ite (fun hbehind => ?_) (fun _ => ?_)
  · -- the bootconfig is what lies between the cursor and the signature
    refine .bind (.sub (fits_of_le hsource (by omega)) (Nat.le_of_lt hbehind)) fun size hsize => ?_
    refine .bind (push_steady _) fun layout' hpush => ?_
    refine placeSignature_steady ?_
    rw [hpush.2]
    exact h.bootconfig hclean (by omega) hpush.1
  · exact placeSignature_steady (h.listed hclean)

end Trailer

/-! ### The whole layout -/

/-- What `boot_sections` promises of the sections it returns. -/
structure LosesNothing (header : BootHeader) (sourceSize : Nat) (sections : List BootSection) :
    Prop where
  bounded : ∀ s ∈ sections, 0 < s.size ∧ s.offset + s.size ≤ sourceSize
  exactlyOne : ∀ kind size, (kind, size) ∈ header.declared → 0 < size →
    ∃ s, sections.filter (·.kind = kind) = [s] ∧ s.size = size
  nothingElse : ∀ s ∈ sections, s.kind = .bootconfig ∨ s.entry ∈ header.declared
  atMostOne : (sections.filter (·.kind = .bootconfig)).length ≤ 1

/-- The kinds that a header declares are distinct, and the bootconfig is none of them. -/
theorem nodup_declared (header : BootHeader) :
    (header.declared.map Prod.fst).Nodup ∧ .bootconfig ∉ header.declared.map Prod.fst := by
  simp only [BootHeader.declared, BootHeader.payload, BootHeader.leading]
  split <;> split <;> split <;> simp

/-- In a list with distinct keys a pair is the only one with its key. -/
theorem filter_fst_eq {κ ν : Type} [DecidableEq κ] {pairs : List (κ × ν)}
    (hnodup : (pairs.map Prod.fst).Nodup) {key : κ} {value : ν} (hmem : (key, value) ∈ pairs) :
    pairs.filter (·.1 = key) = [(key, value)] := by
  induction pairs with
  | nil => cases hmem
  | cons pair pairs ih =>
    rw [List.map_cons, List.nodup_cons] at hnodup
    rcases List.mem_cons.mp hmem with rfl | hmem
    · have hnone : pairs.filter (·.1 = key) = [] := by
        refine List.filter_eq_nil_iff.mpr fun other hother => ?_
        have hne : other.1 ≠ key := fun heq =>
          hnodup.1 (List.mem_map.mpr ⟨other, hother, heq⟩)
        simpa using hne
      rw [List.filter_cons_of_pos (by simp), hnone]
    · have hne : pair.1 ≠ key := fun heq =>
        hnodup.1 (List.mem_map.mpr ⟨(key, value), hmem, heq.symm⟩)
      rw [List.filter_cons_of_neg (by simpa using hne), ih hnodup.2 hmem]

theorem Listed.losesNothing {header : BootHeader} {sourceSize : Nat} {sections : List BootSection}
    (h : Listed sourceSize header.declared sections) : LosesNothing header sourceSize sections where
  bounded := h.bounded
  exactlyOne := by
    intro kind size hmem hsize
    obtain ⟨hnodup, hclean⟩ := nodup_declared header
    have hkind : kind ≠ .bootconfig := by
      rintro rfl
      exact hclean (List.mem_map.mpr ⟨_, hmem, rfl⟩)
    have hkept : (kind, size) ∈ header.declared.filter fun d => 0 < d.2 :=
      List.mem_filter.mpr ⟨hmem, decide_eq_true hsize⟩
    have hdistinct : ((header.declared.filter fun d => 0 < d.2).map Prod.fst).Nodup :=
      hnodup.sublist (List.filter_sublist.map Prod.fst)
    have hone := filter_fst_eq hdistinct hkept
    rw [← h.entries, List.filter_map, List.filter_filter] at hone
    obtain ⟨s, hs, hentry⟩ := List.map_eq_singleton_iff.mp hone
    refine ⟨s, ?_, congrArg Prod.snd hentry⟩
    rw [← hs]
    refine List.filter_congr fun t _ => ?_
    simp only [Function.comp_apply, BootSection.entry]
    by_cases ht : t.kind = kind
    · simp [ht, hkind]
    · simp [ht]
  nothingElse := by
    intro s hs
    by_cases hkind : s.kind = .bootconfig
    · exact Or.inl hkind
    · have hentry : s.entry ∈ (sections.filter (·.kind ≠ .bootconfig)).map BootSection.entry :=
        List.mem_map_of_mem (List.mem_filter.mpr ⟨hs, decide_eq_true hkind⟩)
      rw [h.entries] at hentry
      exact Or.inr (List.mem_filter.mp hentry).1
  atMostOne := h.atMostOne

/-- **`boot_sections` loses nothing and stays in bounds.** For every header and
    every source size the code ends alike under every arithmetic of 64 bits, so
    that no unchecked sum or difference overflows, and the sections it returns
    are those that the header declares, each inside the source. -/
theorem bootSections_losesNothing (header : BootHeader) (sourceSize : UInt64) :
    ∃ result, (∀ A, Words64 A → bootSections A header sourceSize = Outcome.done result) ∧
      ∀ sections, result = .ok sections →
        LosesNothing header sourceSize.toNat sections := by
  have hsource := sourceSize.toNat_lt
  have hstart (cursor : Nat) : Layout.Lists sourceSize.toNat [] ⟨cursor, []⟩ :=
    ⟨by simp, rfl⟩
  obtain ⟨-, hclean⟩ := nodup_declared header
  show Steady Words64 (fun A => bootSections A header sourceSize)
    (LosesNothing header sourceSize.toNat)
  refine .bind (.ofExcept id _) fun page _ => ?_
  refine .bind (.ofExcept LayoutError.binary _) fun cursor _ => ?_
  refine .bind (placeFront_steady hsource (hstart cursor)) fun layout hlayout => ?_
  refine .bind (placeDtb_steady hsource hlayout) fun layout hlayout => ?_
  refine .ite (fun hversion => ?_) (fun hversion => ?_)
  · have hdeclared : header.declared =
        header.payload ++ [(.signature, header.signatureSize.toNat)] := by
      rw [BootHeader.declared, if_pos hversion]
    rw [hdeclared, List.map_append] at hclean
    refine .bind (placeTrailer_steady hsource hlayout fun hmem =>
      hclean (List.mem_append_left _ hmem)) fun layout' hlisted => ?_
    rw [← hdeclared] at hlisted
    exact .ok hlisted.losesNothing
  · have hdeclared : header.declared = header.payload := by
      rw [BootHeader.declared, if_neg hversion, List.append_nil]
    rw [hdeclared] at hclean
    have hlisted := hlayout.listed hclean
    rw [← hdeclared] at hlisted
    exact .ok hlisted.losesNothing

end ImgTools
