import ImgTools.InspectPrefix

/-!
# The order of detection

`detect` looks for one signature after the other. No two of the signatures at
offset 0 can begin the same file, so that their order among themselves does not
matter; but three of them are looked for after the signatures of file systems, which
lie inside the file and can be there by chance.
-/

namespace ImgTools

open Exec Fallible

structure Probe where
  offset : Nat
  magic : List UInt8
  format : Int32
deriving DecidableEq, Repr

def Probe.Matches (p : Probe) (bytes : List UInt8) : Prop := p.magic <+: bytes.drop p.offset

instance (p : Probe) (bytes : List UInt8) : Decidable (p.Matches bytes) :=
  inferInstanceAs (Decidable (_ <+: _))

def Probe.formats (p : Probe) : List Int32 :=
  if p.format = BOOT then [BOOT, INIT_BOOT] else [p.format]

/-- The signatures at offset 0 that are looked for first. -/
def earlyProbes : List Probe :=
  [⟨0, bootMagic, BOOT⟩, ⟨0, vendorBootMagic, VENDOR_BOOT⟩,
    ⟨0, [0x3a, 0xff, 0x26, 0xed], SPARSE⟩, ⟨0, [0x43, 0x72, 0x41, 0x55], OTA_PAYLOAD⟩,
    ⟨0, [0x50, 0x4b, 0x03, 0x04], ZIP⟩, ⟨0, [0x50, 0x4b, 0x05, 0x06], ZIP⟩,
    ⟨0, [0x30, 0x37, 0x30, 0x37, 0x30, 0x31], CPIO⟩,
    ⟨0, [0x30, 0x37, 0x30, 0x37, 0x30, 0x32], CPIO⟩,
    ⟨0, [0x30, 0x37, 0x30, 0x37, 0x30, 0x37], CPIO⟩]

def deepProbes : List Probe :=
  [⟨0x438, [0x53, 0xef], EXT4⟩, ⟨1024, [0xe2, 0xe1, 0xf5, 0xe0], EROFS⟩,
    ⟨1024, [0x10, 0x20, 0xf5, 0xf2], F2FS⟩]

/-- The signatures at offset 0 that are looked for behind those of file systems. -/
def lateProbes : List Probe :=
  [⟨0, [0xd0, 0x0d, 0xfe, 0xed], DTB⟩, ⟨0, [0x7f, 0x45, 0x4c, 0x46], ELF⟩,
    ⟨0, [0x67, 0x44, 0x6c, 0x61], SUPER⟩]

def probes : List Probe :=
  earlyProbes ++ (deepProbes ++ (lateProbes ++ [⟨4096, [0x67, 0x44, 0x6c, 0x61], SUPER⟩]))

def Probe.answer (p : Probe) (bytes : List UInt8) : Outcome Int32 :=
  if p.format = BOOT then detectBoot bytes else return p.format

def identify (bytes : List UInt8) : Option Probe → Outcome Int32
  | some p => p.answer bytes
  | none => return UNKNOWN

/-! ### Detection is a search -/

section Search

variable (B : Build) (bytes : List UInt8)

theorem magicAt_eq_matches (p : Probe) (hmagic : p.magic ≠ [])
    (hfits : p.offset + p.magic.length < 2 ^ 32) :
    magicAt B bytes p.offset p.magic = .done (decide (p.Matches bytes)) := by
  have hmatches : p.Matches bytes ↔ p.magic = (bytes.drop p.offset).take p.magic.length :=
    List.prefix_iff_eq_take
  rw [magicAt_eq B bytes hfits]
  split
  · have hfield : (bytes.take (p.offset + p.magic.length)).drop p.offset =
        (bytes.drop p.offset).take p.magic.length := by
      rw [List.drop_take, Nat.add_sub_cancel_left]
    rw [hfield]
    congr 1
    rw [Bool.eq_iff_iff, beq_iff_eq, decide_eq_true_iff, hmatches]
    exact eq_comm
  · next hlong =>
    have hnot : ¬ p.Matches bytes := by
      intro h
      have hle := h.length_le
      have hpos := List.length_pos_iff.mpr hmagic
      rw [List.length_drop] at hle
      omega
    rw [decide_eq_false hnot]

theorem orElse_test {a b : Outcome Bool} {x y : Outcome Int32} :
    (orElse a b >>= fun found => if found then x else y) =
      a >>= fun found => if found then x else b >>= fun found => if found then x else y := by
  cases a with
  | done found => cases found <;> rfl
  | panic p => rfl
  | spin => rfl

/-- One test of the chain is one step of the search. -/
theorem search_step {x rest : Outcome Int32} (p : Probe) {ps : List Probe}
    (hmagic : p.magic ≠ []) (hfits : p.offset + p.magic.length < 2 ^ 32)
    (hanswer : x = p.answer bytes)
    (hrest : rest = identify bytes (ps.find? fun q => q.Matches bytes)) :
    (magicAt B bytes p.offset p.magic >>= fun found => if found then x else rest) =
      identify bytes ((p :: ps).find? fun q => q.Matches bytes) := by
  rw [magicAt_eq_matches B bytes p hmagic hfits, Outcome.done_bind, List.find?_cons]
  by_cases hmatch : p.Matches bytes
  · rw [decide_eq_true hmatch, if_pos rfl]
    exact hanswer
  · rw [decide_eq_false hmatch, if_neg Bool.false_ne_true]
    exact hrest

theorem detect_eq :
    detect B bytes = identify bytes (probes.find? fun p => p.Matches bytes) := by
  unfold detect
  simp only [orElse_test]
  refine search_step B bytes ⟨0, _, BOOT⟩ (by decide) (by decide) rfl ?_
  refine search_step B bytes ⟨0, _, VENDOR_BOOT⟩ (by decide) (by decide) rfl ?_
  refine search_step B bytes ⟨0, _, SPARSE⟩ (by decide) (by decide) rfl ?_
  refine search_step B bytes ⟨0, _, OTA_PAYLOAD⟩ (by decide) (by decide) rfl ?_
  refine search_step B bytes ⟨0, _, ZIP⟩ (by decide) (by decide) rfl ?_
  refine search_step B bytes ⟨0, _, ZIP⟩ (by decide) (by decide) rfl ?_
  refine search_step B bytes ⟨0, _, CPIO⟩ (by decide) (by decide) rfl ?_
  refine search_step B bytes ⟨0, _, CPIO⟩ (by decide) (by decide) rfl ?_
  refine search_step B bytes ⟨0, _, CPIO⟩ (by decide) (by decide) rfl ?_
  refine search_step B bytes ⟨0x438, _, EXT4⟩ (by decide) (by decide) rfl ?_
  refine search_step B bytes ⟨1024, _, EROFS⟩ (by decide) (by decide) rfl ?_
  refine search_step B bytes ⟨1024, _, F2FS⟩ (by decide) (by decide) rfl ?_
  refine search_step B bytes ⟨0, _, DTB⟩ (by decide) (by decide) rfl ?_
  refine search_step B bytes ⟨0, _, ELF⟩ (by decide) (by decide) rfl ?_
  refine search_step B bytes ⟨0, _, SUPER⟩ (by decide) (by decide) rfl ?_
  exact search_step B bytes ⟨4096, _, SUPER⟩ (by decide) (by decide) rfl rfl

end Search

/-! ### The signatures at offset 0 -/

section Initial

variable {p q : Probe} {bytes : List UInt8}

def initialProbes : List Probe := earlyProbes ++ lateProbes

theorem initial_offset : ∀ p ∈ initialProbes, p.offset = 0 := by decide

/-- None of the signatures at offset 0 begins another. -/
theorem initial_prefix_free :
    ∀ p ∈ initialProbes, ∀ q ∈ initialProbes, p.magic <+: q.magic → p = q := by decide

theorem initial_unique (hp : p ∈ initialProbes) (hq : q ∈ initialProbes)
    (hpmatch : p.Matches bytes) (hqmatch : q.Matches bytes) : p = q := by
  rw [Probe.Matches, initial_offset p hp] at hpmatch
  rw [Probe.Matches, initial_offset q hq] at hqmatch
  rcases List.prefix_or_prefix_of_prefix hpmatch hqmatch with hprefix | hprefix
  · exact initial_prefix_free p hp q hq hprefix
  · exact (initial_prefix_free q hq p hp hprefix).symm

theorem detectBoot_formats (bytes : List UInt8) :
    ∃ format ∈ [BOOT, INIT_BOOT], detectBoot bytes = .done format := by
  obtain ⟨result, hresult⟩ := (parseBootHeader_stops bytes).run_ends
  have hboot : detectBoot bytes = .done BOOT ∨ detectBoot bytes = .done INIT_BOOT := by
    rw [detectBoot, hresult, Outcome.done_bind]
    cases result with
    | ok header =>
      dsimp only
      split
      · exact Or.inr rfl
      · exact Or.inl rfl
    | error e => exact Or.inl rfl
  rcases hboot with hboot | hboot
  · exact ⟨BOOT, by decide, hboot⟩
  · exact ⟨INIT_BOOT, by decide, hboot⟩

theorem answer_formats (p : Probe) (bytes : List UInt8) :
    ∃ format ∈ p.formats, p.answer bytes = .done format := by
  unfold Probe.formats Probe.answer
  split
  · exact detectBoot_formats bytes
  · exact ⟨p.format, List.mem_singleton_self _, rfl⟩

/-- A search that finds no other probe finds the one that matches. -/
theorem find?_eq_some_of_unique {ps : List Probe} (hmem : p ∈ ps) (hmatch : p.Matches bytes)
    (hunique : ∀ q ∈ ps, q.Matches bytes → q = p) :
    (ps.find? fun q => q.Matches bytes) = some p := by
  cases hfind : ps.find? fun q => q.Matches bytes with
  | none => exact absurd (decide_eq_true hmatch) (List.find?_eq_none.mp hfind p hmem)
  | some q =>
    have hqmatch : q.Matches bytes := by simpa using List.find?_some hfind
    rw [hunique q (List.mem_of_find?_eq_some hfind) hqmatch]

/-- A signature that is looked for early is found. -/
theorem find?_early (hp : p ∈ earlyProbes) (hmatch : p.Matches bytes) :
    (probes.find? fun q => q.Matches bytes) = some p := by
  have hfind := find?_eq_some_of_unique hp hmatch fun q hq hqmatch =>
    initial_unique (List.mem_append_left _ hq) (List.mem_append_left _ hp) hqmatch hmatch
  rw [probes, List.find?_append, hfind, Option.some_or]

/-- A signature that is looked for late is found behind those of file systems. -/
theorem find?_late (hp : p ∈ lateProbes) (hmatch : p.Matches bytes) :
    (probes.find? fun q => q.Matches bytes) =
      (deepProbes.find? fun q => q.Matches bytes).or (some p) := by
  have hinitial : p ∈ initialProbes := List.mem_append_right _ hp
  have hearly : (earlyProbes.find? fun q => q.Matches bytes) = none := by
    apply List.find?_eq_none.mpr
    intro q hq hqmatch
    obtain rfl := initial_unique (List.mem_append_left _ hq) hinitial
      (of_decide_eq_true hqmatch) hmatch
    have hdisjoint : ∀ q ∈ earlyProbes, q ∉ lateProbes := by decide
    exact hdisjoint q hq hp
  have hlate := find?_eq_some_of_unique hp hmatch fun q hq hqmatch =>
    initial_unique (List.mem_append_right _ hq) hinitial hqmatch hmatch
  rw [probes, List.find?_append, hearly, Option.none_or, List.find?_append, List.find?_append,
    hlate, Option.some_or]

end Initial

/-- **A signature at offset 0** decides the format exactly when it is looked for
    early, or no signature of a file system is in its place. -/
theorem detect_initial_iff (B : Build) (bytes : List UInt8) (p : Probe) (hp : p ∈ initialProbes)
    (hmatch : p.magic <+: bytes) :
    (∃ format ∈ p.formats, detect B bytes = .done format) ↔
      p ∈ earlyProbes ∨ ∀ q ∈ deepProbes, ¬ q.Matches bytes := by
  have hmatches : p.Matches bytes := by
    rw [Probe.Matches, initial_offset p hp]
    exact hmatch
  rw [detect_eq]
  rcases List.mem_append.mp hp with hearly | hlate
  · rw [find?_early hearly hmatches]
    exact iff_of_true (answer_formats p bytes) (Or.inl hearly)
  · have hlater : ∀ q ∈ lateProbes, q ∉ earlyProbes := by decide
    rw [find?_late hlate hmatches, or_iff_right (hlater p hlate)]
    cases hdeep : deepProbes.find? fun q => q.Matches bytes with
    | none =>
      have hnone : ∀ q ∈ deepProbes, ¬ q.Matches bytes := fun q hq h =>
        List.find?_eq_none.mp hdeep q hq (decide_eq_true h)
      exact iff_of_true (answer_formats p bytes) hnone
    | some q =>
      have hmem : q ∈ deepProbes := List.mem_of_find?_eq_some hdeep
      have hfound : q.Matches bytes := by simpa using List.find?_some hdeep
      -- the format of a file system is none of those that are looked for late
      have hother : ∀ q ∈ deepProbes, ∀ p ∈ lateProbes, q.format ≠ BOOT ∧ q.format ∉ p.formats := by
        decide
      obtain ⟨hboot, hformat⟩ := hother q hmem p hlate
      refine iff_of_false ?_ fun h => h q hmem hfound
      rintro ⟨format, hnamed, hanswer⟩
      rw [Option.some_or, identify, Probe.answer, if_neg hboot, Outcome.pure_eq,
        Outcome.done.injEq] at hanswer
      exact hformat (hanswer ▸ hnamed)

/-- An ELF file that reaches behind the places of the file systems, without their signatures. -/
theorem detect_initial_iff_elf :
    let bytes : List UInt8 := [0x7f, 0x45, 0x4c, 0x46] ++ List.replicate 1200 1
    ∃ format ∈ (⟨0, [0x7f, 0x45, 0x4c, 0x46], ELF⟩ : Probe).formats,
      detect (.wide .debug) bytes = .done format := by
  intro bytes
  have hiff := detect_initial_iff (.wide .debug) bytes ⟨0, [0x7f, 0x45, 0x4c, 0x46], ELF⟩
    (by decide) (List.prefix_append _ _)
  refine hiff.mpr (Or.inr ?_)
  decide +kernel

/-- A device tree of 1082 bytes that is taken for a file system. -/
def ext4Tree : List UInt8 := [0xd0, 0x0d, 0xfe, 0xed] ++ (List.replicate 1076 0 ++ [0x53, 0xef])

theorem detect_ext4Tree :
    [0xd0, 0x0d, 0xfe, 0xed] <+: ext4Tree ∧ detect (.wide .debug) ext4Tree = .done EXT4 ∧
      EXT4 ∉ (⟨0, [0xd0, 0x0d, 0xfe, 0xed], DTB⟩ : Probe).formats := by
  refine ⟨List.prefix_append _ _, ?_, by decide⟩
  decide +kernel

end ImgTools
