import ImgTools.BootImage
import ImgTools.InspectOrder
import ImgTools.Reports
import ImgTools.VendorImage
import ImgTools.ZipRoundTrip

/-!
# The reports of images and packages

What the engine reports of a file that follows its format, and what the activity makes
of it: a boot image or a vendor boot image is named with the lengths of its parts, and a
package with its entries. The activity of this commit never comes to the report.
-/

namespace ImgTools

open Exec Fallible Kotlin

/-! ### Codes and details -/

section Details

variable {bytes : List UInt8}

/-- A signature that is looked for early, and is not that of a boot image. -/
theorem detect_of_early (B : Build) {p : Probe} (hp : p ∈ earlyProbes) (hboot : p.format ≠ BOOT)
    (hmatch : p.magic <+: bytes) : detect B bytes = .done p.format := by
  have hmatches : p.Matches bytes := by
    rw [Probe.Matches, initial_offset p (List.mem_append_left _ hp)]
    exact hmatch
  rw [detect_eq, find?_early hp hmatches, identify, Probe.answer, if_neg hboot]
  rfl

theorem magic_of_parseBootHeader {header : BootHeader} (h : parseBootHeader bytes = ok header) :
    bootMagic <+: bytes := by
  obtain ⟨version, hholds⟩ := (parseBootHeader_accepts bytes).mp ⟨header, h⟩
  exact hholds.magic

theorem magic_of_parseVendorBootHeader {header : VendorBootHeader}
    (h : parseVendorBootHeader bytes = ok header) : vendorBootMagic <+: bytes := by
  obtain ⟨version, hholds⟩ := (parseVendorBootHeader_accepts bytes).mp ⟨header, h⟩
  exact hholds.magic

/-- A parser that asks for a signature refuses bytes with another one. -/
theorem parse_error {ε H : Type} {parse : Fallible ε H} {Q : H → Prop} (hstops : Stops parse Q)
    {expected magic : List UInt8} (hmagic : ∀ header, parse = ok header → expected <+: bytes)
    (hmatch : magic <+: bytes) (hother : ¬ expected <+: magic ∧ ¬ magic <+: expected) :
    ∃ e, parse.run = .done (.error e) := by
  obtain ⟨result, hresult⟩ := hstops.run_ends
  cases result with
  | error e => exact ⟨e, hresult⟩
  | ok header =>
    rcases List.prefix_or_prefix_of_prefix (hmagic header hresult) hmatch with h | h
    · exact absurd h hother.1
    · exact absurd h hother.2

theorem parseBootHeader_error {magic : List UInt8} (hmatch : magic <+: bytes)
    (hother : ¬ bootMagic <+: magic ∧ ¬ magic <+: bootMagic) :
    ∃ e, (parseBootHeader bytes).run = .done (.error e) :=
  parse_error (parseBootHeader_stops bytes) (fun _ => magic_of_parseBootHeader) hmatch hother

variable (B : Build)

def BootHeader.IsInitBoot (header : BootHeader) : Prop :=
  header.headerVersion ≥ 4 ∧ header.kernelSize = 0 ∧ header.ramdiskSize > 0

instance (header : BootHeader) : Decidable header.IsInitBoot :=
  inferInstanceAs (Decidable (_ ∧ _ ∧ _))

theorem detect_bootHeader {header : BootHeader} (h : parseBootHeader bytes = ok header) :
    detect B bytes = .done (if header.IsInitBoot then INIT_BOOT else BOOT) := by
  have hrun : (parseBootHeader bytes).run = .done (.ok header) := h
  have hfind := find?_early (p := ⟨0, bootMagic, BOOT⟩) (by decide) (magic_of_parseBootHeader h)
  rw [detect_eq, hfind, identify, Probe.answer, if_pos rfl, detectBoot, hrun]
  show (if header.IsInitBoot then _ else _ : Outcome Int32) = _
  split <;> rfl

theorem headerDetails_bootHeader {header : BootHeader} (h : parseBootHeader bytes = ok header) :
    headerDetails bytes = .done header.details := by
  have hrun : (parseBootHeader bytes).run = .done (.ok header) := h
  rw [headerDetails, hrun]
  rfl

theorem detect_vendorBootHeader {header : VendorBootHeader}
    (h : parseVendorBootHeader bytes = ok header) : detect B bytes = .done VENDOR_BOOT :=
  detect_of_early B (p := ⟨0, vendorBootMagic, VENDOR_BOOT⟩) (by decide) (by decide)
    (magic_of_parseVendorBootHeader h)

theorem headerDetails_vendorBootHeader {header : VendorBootHeader}
    (h : parseVendorBootHeader bytes = ok header) : headerDetails bytes = .done header.details := by
  have hrun : (parseVendorBootHeader bytes).run = .done (.ok header) := h
  obtain ⟨e, hboot⟩ := parseBootHeader_error (magic_of_parseVendorBootHeader h) (by decide)
  rw [headerDetails, hboot, Outcome.done_bind]
  dsimp only
  rw [hrun]
  rfl

theorem headerDetails_package {magic : List UInt8} (hsome : ⟨0, magic, ZIP⟩ ∈ earlyProbes)
    (hmatch : magic <+: bytes) :
    headerDetails bytes = .done "Header details unavailable for this format" := by
  have hother : ∀ p ∈ earlyProbes, p.format = ZIP →
      (¬ bootMagic <+: p.magic ∧ ¬ p.magic <+: bootMagic) ∧
        ¬ vendorBootMagic <+: p.magic ∧ ¬ p.magic <+: vendorBootMagic := by decide
  obtain ⟨hnotBoot, hnotVendor⟩ := hother _ hsome rfl
  obtain ⟨e, hboot⟩ := parseBootHeader_error hmatch hnotBoot
  obtain ⟨e', hvendor⟩ := parse_error (parseVendorBootHeader_stops bytes)
    (fun _ => magic_of_parseVendorBootHeader) hmatch hnotVendor
  rw [headerDetails, hboot, Outcome.done_bind]
  dsimp only
  rw [hvendor]
  rfl

end Details

/-! ### The lengths of the parts -/

theorem size_eq_zero_iff {size : UInt32} {part : List UInt8} (h : size.toNat = part.length) :
    size = 0 ↔ part = [] := by
  rw [← UInt32.toNat_inj, h]
  exact List.length_eq_zero_iff

theorem toString_size {size : UInt32} {part : List UInt8} (h : size.toNat = part.length) :
    toString size = toString part.length := congrArg toString h

theorem BootHeader.isInitBoot_iff {header : BootHeader} {kernel ramdisk : List UInt8}
    (hkernel : header.kernelSize.toNat = kernel.length)
    (hramdisk : header.ramdiskSize.toNat = ramdisk.length) :
    header.IsInitBoot ↔ header.headerVersion ≥ 4 ∧ kernel = [] ∧ ramdisk ≠ [] := by
  have hkernel := size_eq_zero_iff hkernel
  have hramdisk : header.ramdiskSize > 0 ↔ ramdisk ≠ [] := by
    rw [ne_eq, ← size_eq_zero_iff hramdisk]
    exact UInt32.pos_iff_ne_zero
  rw [IsInitBoot, hkernel, hramdisk]

theorem BootHeader.details_of_parts {header : BootHeader} {kernel ramdisk : List UInt8}
    (hkernel : header.kernelSize.toNat = kernel.length)
    (hramdisk : header.ramdiskSize.toNat = ramdisk.length) :
    header.details = s!"boot v{header.headerVersion} • header {header.headerSize} B" ++
      s!" • kernel {kernel.length} B • ramdisk {ramdisk.length} B" ++
      s!" • page {header.pageSize} B" := by
  rw [← toString_size hkernel, ← toString_size hramdisk, BootHeader.details]
  simp only [String.append_assoc]
  rfl

theorem VendorBootHeader.details_of_parts {header : VendorBootHeader} {ramdisk dtb : List UInt8}
    (hramdisk : header.vendorRamdiskSize.toNat = ramdisk.length)
    (hdtb : header.dtbSize.toNat = dtb.length) :
    header.details = s!"vendor_boot v{header.headerVersion} • header {header.headerSize} B" ++
      s!" • vendor ramdisk {ramdisk.length} B • dtb {dtb.length} B" ++
      s!" • page {header.pageSize} B" := by
  have hramdisk := toString_size hramdisk
  have hdtb := toString_size hdtb
  unfold VendorBootHeader.details
  simp only [hramdisk]
  simp only [hdtb]

/-! ### The reports of images -/

section Images

variable {B : Build} {fd : Int32} (hfd : 0 ≤ fd) {size : Int64} (hsize : 0 ≤ size)
  {schedule : List Event} (hcalls : ∀ message, .failed message ∉ schedule)

include hfd hsize hcalls

/-- **The report of a boot image** has the lengths of its kernel and its ramdisk. -/
theorem bootImage_report (image : BootImage) (hwhole : size.toNatClampNeg = image.bytes.length) :
    let header := image.header.parsed
    let isInitBoot := header.headerVersion ≥ 4 ∧ image.kernel = [] ∧ image.ramdisk ≠ []
    ∃ report, inspectFile some B fd size ⟨image.bytes, schedule⟩ = .done (some report) ∧
      ∀ (M : Machine) listed, detectionOf M report listed = ok
        { label := if isInitBoot then "Android init_boot image" else "Android boot image"
          detail := s!"boot v{header.headerVersion} • header {header.headerSize} B" ++
            s!" • kernel {image.kernel.length} B • ramdisk {image.ramdisk.length} B" ++
            s!" • page {header.pageSize} B" } := by
  intro header isInitBoot
  obtain ⟨report, hreport, hdetection⟩ := inspectFile_report hfd hsize hwhole hcalls
    (detect_bootHeader B image.parse_bytes) (headerDetails_bootHeader image.parse_bytes)
  refine ⟨report, hreport, fun M listed => ?_⟩
  have hinit : header.IsInitBoot ↔ isInitBoot :=
    BootHeader.isInitBoot_iff image.kernelSize image.ramdiskSize
  rw [hdetection, BootHeader.details_of_parts image.kernelSize image.ramdiskSize]
  by_cases h : header.IsInitBoot
  · rw [if_pos h, if_pos (hinit.mp h)]
    rfl
  · rw [if_neg h, if_neg (mt hinit.mpr h)]
    rfl

end Images

/-- The image comes in two parts, with an interruption between them. -/
theorem bootImage_report_small :
    ∃ report, inspectFile some (.wide .release) 3 4096
        ⟨smallImage.bytes, [.progress 1000, .interrupted]⟩ = .done (some report) ∧
      ∀ (M : Machine) listed, detectionOf M report listed = ok
        { label := "Android boot image"
          detail := "boot v2 • header 1660 B • kernel 3 B • ramdisk 1 B • page 512 B" } := by
  exact bootImage_report (by decide) (by decide) (by simp) smallImage (by decide +kernel)

section Images

variable {B : Build} {fd : Int32} (hfd : 0 ≤ fd) {size : Int64} (hsize : 0 ≤ size)
  {schedule : List Event} (hcalls : ∀ message, .failed message ∉ schedule)

include hfd hsize hcalls

/-- **The report of a vendor boot image** has the lengths of its ramdisk and its DTB. -/
theorem vendorImage_report (image : VendorImage)
    (hwhole : size.toNatClampNeg = image.bytes.length) :
    let header := image.header.parsed
    ∃ report, inspectFile some B fd size ⟨image.bytes, schedule⟩ = .done (some report) ∧
      ∀ (M : Machine) listed, detectionOf M report listed = ok
        { label := "Android vendor_boot image"
          detail := s!"vendor_boot v{header.headerVersion} • header {header.headerSize} B" ++
            s!" • vendor ramdisk {image.vendorRamdisk.length} B • dtb {image.dtb.length} B" ++
            s!" • page {header.pageSize} B" } := by
  intro header
  obtain ⟨report, hreport, hdetection⟩ := inspectFile_report hfd hsize hwhole hcalls
    (detect_vendorBootHeader B image.parse_bytes) (headerDetails_vendorBootHeader image.parse_bytes)
  refine ⟨report, hreport, fun M listed => ?_⟩
  rw [hdetection, VendorBootHeader.details_of_parts image.vendorRamdiskSize image.dtbSize]
  rfl

end Images

theorem vendorImage_report_small :
    ∃ report, inspectFile some (.wide .release) 3 4097
        ⟨smallVendorImage.bytes, [.progress 1000, .interrupted]⟩ = .done (some report) ∧
      ∀ (M : Machine) listed, detectionOf M report listed = ok
        { label := "Android vendor_boot image"
          detail := "vendor_boot v4 • header 2128 B • vendor ramdisk 3 B • dtb 0 B • page 512 B" } := by
  exact vendorImage_report (by decide) (by decide) (by simp) smallVendorImage (by decide +kernel)

/-! ### Packages -/

namespace Zip

open Format

/-- An archive starts with the local header of its first entry, if there is no gap. -/
theorem localSignature_isPrefix {archive : Archive} {entry : Entry} {entries : List Entry}
    (hentries : archive.entries = entry :: entries) (hgap : entry.gap = []) :
    [0x50, 0x4b, 0x03, 0x04] <+: archive.bytes := by
  have hfirst := archive.localPart_isPrefix (p := (0, entry)) (by
    rw [hentries, placed, hgap]
    exact List.mem_cons_self)
  exact (List.prefix_append _ _).trans hfirst

end Zip

/-- **The report of a package** lists its entries. -/
theorem archive_report {B : Build} {fd : Int32} (hfd : 0 ≤ fd) {size : Int64} (hsize : 0 ≤ size)
    (archive : Zip.Format.Archive) (hwhole : size.toNatClampNeg = archive.bytes.length)
    (hfile : archive.bytes.length ≤ B.isizeMax) (hfound : archive.file.EndIsFound)
    {entry : Zip.Format.Entry} {entries : List Zip.Format.Entry}
    (hentries : archive.entries = entry :: entries) (hgap : entry.gap = [])
    {inspecting listing : List Event} (hinspecting : ∀ message, .failed message ∉ inspecting)
    (hlisting : ∀ message, .failed message ∉ listing) :
    ∃ report, inspectFile some B fd size ⟨archive.bytes, inspecting⟩ = .done (some report) ∧
      ∀ M : Machine, detectionOf M report
          (listZip M.quoted some B fd size ⟨archive.bytes, listing⟩) = ok
        { label := "ZIP package"
          detail := "Header details unavailable for this format" ++ "\\n" ++
            listingReport archive.listing } := by
  have hsmall : archive.bytes.length < 2 ^ 64 :=
    Nat.lt_of_le_of_lt (hfile.trans B.isizeMax_le) (by decide)
  have hprobe : (⟨0, [0x50, 0x4b, 0x03, 0x04], ZIP⟩ : Probe) ∈ earlyProbes := by decide
  have hmagic := Zip.localSignature_isPrefix hentries hgap
  obtain ⟨report, hreport, hdetection⟩ := inspectFile_report hfd hsize hwhole hinspecting
    (detect_of_early B hprobe (by decide) hmagic) (headerDetails_package hprobe hmagic)
  refine ⟨report, hreport, fun M => ?_⟩
  have hlist := listZip_report hfd hsize hwhole hlisting hfile M.quoted
    (Zip.eval_archive B archive hsmall hfound (archive.fitsMemory_of_length_le hfile))
  rw [hdetection, hlist]
  rfl

/-- Both functions meet calls that are interrupted or cut short. -/
theorem archive_report_sample :
    ∃ report, inspectFile some (.wide .release) 3 127
        ⟨Zip.sampleArchive.bytes, [.progress 9, .interrupted]⟩ = .done (some report) ∧
      ∀ M : Machine, detectionOf M report (listZip M.quoted some (.wide .release) 3 127
          ⟨Zip.sampleArchive.bytes, [.interrupted, .progress 5]⟩) = ok
        { label := "ZIP package"
          detail := "Header details unavailable for this format" ++ "\\n" ++
            listingReport Zip.sampleArchive.listing } :=
  archive_report (by decide) (by decide) Zip.sampleArchive (by decide +kernel) (by decide +kernel)
    Zip.sampleArchive_endIsFound rfl rfl (by simp) (by simp)

end ImgTools
