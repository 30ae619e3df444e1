import ImgTools.BootHeaderFormat
import ImgTools.BootHeaderPrefix

/-!
# Boot header parsing is exact

Which byte strings `parse_boot_header` and `parse_vendor_boot_header` accept, and
what they make of an encoded header of the format. A version that has no page size
is given the page size 4096; every other field that a version lacks is zero.
-/

namespace ImgTools

open Exec Fallible

/-- What a parser promises: it stops on every byte string, accepts those that hold a
    header, reads an encoded header back, and sees no byte behind the header. -/
structure HeaderFormat.Exact {H A : Type} (f : HeaderFormat)
    (parse : List UInt8 → Fallible BootParseError H) (fields : A → List (List UInt8))
    (parsed : A → H) : Prop where
  stops : ∀ bytes, ∃ result, parse bytes = Outcome.done result
  accepts : ∀ bytes, (∃ header, parse bytes = ok header) ↔ ∃ version, f.Holds bytes version
  reads : ∀ h rest, parse ((fields h).flatten ++ rest) = ok (parsed h)
  isLocal : ∀ bytes bytes' version, u32le bytes f.versionOffset = .done version →
    bytes'.take (f.size version) = bytes.take (f.size version) → parse bytes' = parse bytes

/-! ### What is accepted -/

section Accepted

theorem bootFormat_supported (version : UInt32) :
    bootFormat.supported version ↔ ¬ version > maxHeaderVersion :=
  UInt32.not_lt.symm

theorem vendorBootFormat_supported (version : UInt32) :
    vendorBootFormat.supported version ↔ ¬ (version < 3 ∨ version > maxHeaderVersion) := by
  rw [not_or]
  exact and_congr UInt32.not_lt.symm UInt32.not_lt.symm

variable {bytes : List UInt8} {version : UInt32}

theorem parseBootFields_ends (hsize : bootHeaderSize version ≤ bytes.length) :
    ∃ header, parseBootFields bytes version = ok header := by
  unfold parseBootFields
  split
  · obtain ⟨header, hheader⟩ := parseModernHeader_ends hsize (bootHeaderSize version)
    exact ⟨header, by rw [hheader, lift_done]⟩
  · next hlegacy =>
    obtain ⟨header, hheader⟩ := parseLegacyHeader_ends hsize (UInt32.not_le.mp hlegacy)
      (bootHeaderSize version)
    exact ⟨header, by rw [hheader, lift_done]⟩

theorem parseBootHeader_of_holds (h : bootFormat.Holds bytes version) :
    parseBootHeader bytes = parseBootFields bytes version :=
  HeaderFormat.check_of_holds length_bootMagic bootFormat_supported h

theorem parseVendorBootHeader_of_holds (h : vendorBootFormat.Holds bytes version) :
    parseVendorBootHeader bytes = parseVendorBootFields bytes version :=
  HeaderFormat.check_of_holds length_vendorBootMagic vendorBootFormat_supported h

theorem parseBootHeader_accepts (bytes : List UInt8) :
    (∃ header, parseBootHeader bytes = ok header) ↔ ∃ version, bootFormat.Holds bytes version :=
  HeaderFormat.check_accepts length_bootMagic bootFormat_supported
    fun _ hsize => parseBootFields_ends hsize

theorem parseVendorBootFields_ends (hsize : vendorBootHeaderSize version ≤ bytes.length) :
    ∃ header, parseVendorBootFields bytes version = ok header := by
  have hall : 2112 ≤ bytes.length := (vendorHeaderV3Size_le version).trans hsize
  have htable : ∀ {offset}, offset + 4 ≤ 2128 → version ≥ 4 → offset + 4 ≤ bytes.length := by
    intro offset hle h
    rw [vendorBootHeaderSize, if_pos h] at hsize
    exact hle.trans hsize
  unfold parseVendorBootFields
  repeat refine lift_bind_yields (u32le_ends (by omega)) fun _ => ?_
  refine lift_bind_yields (u64le_ends (by omega)) fun _ => ?_
  repeat refine lift_bind_yields (u32leIf_ends (htable (by decide))) fun _ => ?_
  exact ⟨_, rfl⟩

theorem parseVendorBootHeader_accepts (bytes : List UInt8) :
    (∃ header, parseVendorBootHeader bytes = ok header) ↔
      ∃ version, vendorBootFormat.Holds bytes version :=
  HeaderFormat.check_accepts length_vendorBootMagic vendorBootFormat_supported
    fun _ hsize => parseVendorBootFields_ends hsize

end Accepted

/-! ### What is read -/

section Read

variable {bytes : List UInt8} {version : UInt32}

theorem stands_fields (parts : List (List UInt8)) (rest : List UInt8) :
    Stands (parts.flatten ++ rest) 0 parts :=
  stands_flatten [] parts rest

theorem BootImgHdrV0.read (h : BootImgHdrV0) (hstands : Stands bytes 0 (h.fields version))
    (hsupported : version ≤ maxHeaderVersion) (hsize : bootHeaderSize version ≤ bytes.length) :
    bootFormat.Holds bytes version ∧
      ∀ required dtboSize dtboOffset dtbSize dtbAddr,
        u32leIf (version ≥ 1) bytes 1632 = .done dtboSize →
        u64leIf (version ≥ 1) bytes 1636 = .done dtboOffset →
        u32leIf (version ≥ 2) bytes 1648 = .done dtbSize →
        u64leIf (version ≥ 2) bytes 1652 = .done dtbAddr →
        parseLegacyHeader bytes version required = .done
          { h.parsed with
            headerVersion := version
            headerSize := UInt32.ofNat required
            recoveryDtboSize := dtboSize
            recoveryDtboOffset := dtboOffset
            dtbSize := dtbSize
            dtbAddr := dtbAddr } := by
  simp only [fields, Stands, length_bootMagic, length_le32, List.Vector.toList_length,
    Nat.reduceAdd, and_true] at hstands
  obtain ⟨hmagic, hkernelSize, hkernelAddr, hramdiskSize, hramdiskAddr, hsecondSize, hsecondAddr,
    htagsAddr, hpageSize, hversion, hosVersion, -⟩ := hstands
  constructor
  · exact ⟨(slice_eq_magic_iff length_bootMagic).mp hmagic, u32le_eq_done hversion, hsupported,
      (headerV3Size_le version).trans hsize, hsize⟩
  · intro required dtboSize dtboOffset dtbSize dtbAddr hdtboSize hdtboOffset hdtbSize hdtbAddr
    unfold parseLegacyHeader
    rw [u32le_eq_done hpageSize, u32le_eq_done hkernelSize, u32le_eq_done hkernelAddr,
      u32le_eq_done hramdiskSize, u32le_eq_done hramdiskAddr, u32le_eq_done hsecondSize,
      u32le_eq_done hsecondAddr, u32le_eq_done htagsAddr, u32le_eq_done hosVersion,
      hdtboSize, hdtboOffset, hdtbSize, hdtbAddr]
    rfl

theorem BootImgHdrV0.parse (h : BootImgHdrV0) (hstands : Stands bytes 0 (h.fields 0))
    (hsize : headerV0Size ≤ bytes.length) : parseBootHeader bytes = ok h.parsed := by
  obtain ⟨hholds, hread⟩ := h.read hstands (by decide) hsize
  have hparse := hread headerV0Size 0 0 0 0 (if_neg (by decide)) (if_neg (by decide))
    (if_neg (by decide)) (if_neg (by decide))
  rw [parseBootHeader_of_holds hholds]
  exact lift_eq_ok.mpr hparse

theorem BootImgHdrV1.parse (h : BootImgHdrV1) (hstands : Stands bytes 0 (h.fields 1))
    (hsize : headerV1Size ≤ bytes.length) : parseBootHeader bytes = ok h.parsed := by
  obtain ⟨hbase, hdtbo⟩ := stands_append.mp hstands
  rw [BootImgHdrV0.length_fields] at hdtbo
  obtain ⟨hdtboSize, hdtboOffset, -⟩ := hdtbo
  obtain ⟨hholds, hread⟩ := h.toBootImgHdrV0.read hbase (by decide) hsize
  have hparse := hread headerV1Size _ _ 0 0
    ((if_pos (by decide)).trans (u32le_eq_done hdtboSize))
    ((if_pos (by decide)).trans (u64le_eq_done hdtboOffset))
    (if_neg (by decide)) (if_neg (by decide))
  rw [parseBootHeader_of_holds hholds]
  exact lift_eq_ok.mpr hparse

theorem BootImgHdrV2.parse (h : BootImgHdrV2) (hstands : Stands bytes 0 (h.fields 2))
    (hsize : headerV2Size ≤ bytes.length) : parseBootHeader bytes = ok h.parsed := by
  obtain ⟨hdtbo, hdtb⟩ := stands_append.mp hstands
  rw [BootImgHdrV1.length_fields] at hdtb
  obtain ⟨hdtbSize, hdtbAddr, -⟩ := hdtb
  obtain ⟨hbase, hdtbo⟩ := stands_append.mp hdtbo
  rw [BootImgHdrV0.length_fields] at hdtbo
  obtain ⟨hdtboSize, hdtboOffset, -⟩ := hdtbo
  obtain ⟨hholds, hread⟩ := h.toBootImgHdrV0.read hbase (by decide) hsize
  have hparse := hread headerV2Size _ _ _ _
    ((if_pos (by decide)).trans (u32le_eq_done hdtboSize))
    ((if_pos (by decide)).trans (u64le_eq_done hdtboOffset))
    ((if_pos (by decide)).trans (u32le_eq_done hdtbSize))
    ((if_pos (by decide)).trans (u64le_eq_done hdtbAddr))
  rw [parseBootHeader_of_holds hholds]
  exact lift_eq_ok.mpr hparse

theorem BootImgHdrV3.read (h : BootImgHdrV3) (hstands : Stands bytes 0 (h.fields version))
    (hsupported : version ≤ maxHeaderVersion) (hsize : bootHeaderSize version ≤ bytes.length) :
    bootFormat.Holds bytes version ∧
      ∀ required signatureSize,
        u32leIf (version ≥ 4) bytes 1580 = .done signatureSize →
        parseModernHeader bytes version required = .done
          { h.parsed with
            headerVersion := version
            headerSize := max h.headerSize (UInt32.ofNat required)
            signatureSize := signatureSize } := by
  simp only [fields, Stands, length_bootMagic, length_le32, List.Vector.toList_length,
    Nat.reduceAdd, and_true] at hstands
  obtain ⟨hmagic, hkernelSize, hramdiskSize, hosVersion, hheaderSize, -, hversion, -⟩ := hstands
  constructor
  · exact ⟨(slice_eq_magic_iff length_bootMagic).mp hmagic, u32le_eq_done hversion, hsupported,
      (headerV3Size_le version).trans hsize, hsize⟩
  · intro required signatureSize hsignatureSize
    unfold parseModernHeader
    rw [u32le_eq_done hheaderSize, u32le_eq_done hkernelSize, u32le_eq_done hramdiskSize,
      u32le_eq_done hosVersion, hsignatureSize]
    rfl

theorem BootImgHdrV3.parse (h : BootImgHdrV3) (hstands : Stands bytes 0 (h.fields 3))
    (hsize : headerV3Size ≤ bytes.length) : parseBootHeader bytes = ok h.parsed := by
  obtain ⟨hholds, hread⟩ := h.read hstands (by decide) hsize
  have hparse := hread headerV3Size 0 (if_neg (by decide))
  rw [parseBootHeader_of_holds hholds]
  exact lift_eq_ok.mpr hparse

theorem BootImgHdrV4.parse (h : BootImgHdrV4) (hstands : Stands bytes 0 (h.fields 4))
    (hsize : headerV4Size ≤ bytes.length) : parseBootHeader bytes = ok h.parsed := by
  obtain ⟨hbase, hsignature⟩ := stands_append.mp hstands
  rw [BootImgHdrV3.length_fields] at hsignature
  obtain ⟨hsignatureSize, -⟩ := hsignature
  obtain ⟨hholds, hread⟩ := h.toBootImgHdrV3.read hbase (by decide) hsize
  have hparse := hread headerV4Size _ ((if_pos (by decide)).trans (u32le_eq_done hsignatureSize))
  rw [parseBootHeader_of_holds hholds]
  exact lift_eq_ok.mpr hparse

theorem BootImgHdr.parse (h : BootImgHdr) (rest : List UInt8) :
    parseBootHeader (h.fields.flatten ++ rest) = ok h.parsed := by
  have hstands := stands_fields h.fields rest
  have hlength : h.fields.flatten.length ≤ (h.fields.flatten ++ rest).length := by
    rw [List.length_append]
    exact Nat.le_add_right _ _
  cases h with
  | v0 h => exact h.parse hstands (h.length_fields 0 ▸ hlength)
  | v1 h => exact h.parse hstands (h.length_fields 1 ▸ hlength)
  | v2 h => exact h.parse hstands (h.length_fields 2 ▸ hlength)
  | v3 h => exact h.parse hstands (h.length_fields 3 ▸ hlength)
  | v4 h => exact h.parse hstands (h.length_fields 4 ▸ hlength)

/-- The fields that the two vendor boot versions share, read back. -/
theorem VendorBootImgHdrV3.read (h : VendorBootImgHdrV3)
    (hstands : Stands bytes 0 (h.fields version)) (hsupported : vendorBootFormat.supported version)
    (hsize : vendorBootHeaderSize version ≤ bytes.length) :
    vendorBootFormat.Holds bytes version ∧
      ∀ tableSize entryNum entrySize bootconfigSize,
        u32leIf (version ≥ 4) bytes 2112 = .done tableSize →
        u32leIf (version ≥ 4) bytes 2116 = .done entryNum →
        u32leIf (version ≥ 4) bytes 2120 = .done entrySize →
        u32leIf (version ≥ 4) bytes 2124 = .done bootconfigSize →
        parseVendorBootFields bytes version = ok
          { h.parsed with
            headerVersion := version
            headerSize := if h.headerSize = 0 then UInt32.ofNat (vendorBootHeaderSize version)
              else h.headerSize
            ramdiskTableSize := tableSize
            ramdiskTableEntryNum := entryNum
            ramdiskTableEntrySize := entrySize
            bootconfigSize := bootconfigSize } := by
  simp only [fields, Stands, length_vendorBootMagic, length_le32, length_le64,
    List.Vector.toList_length, Nat.reduceAdd, and_true] at hstands
  obtain ⟨hmagic, hversion, hpageSize, hkernelAddr, hramdiskAddr, hvendorRamdiskSize, -, htagsAddr,
    -, hheaderSize, hdtbSize, hdtbAddr⟩ := hstands
  constructor
  · exact ⟨(slice_eq_magic_iff length_vendorBootMagic).mp hmagic, u32le_eq_done hversion,
      hsupported, (vendorHeaderV3Size_le version).trans hsize, hsize⟩
  · intro tableSize entryNum entrySize bootconfigSize htable hnum hentry hbootconfig
    unfold parseVendorBootFields
    rw [u32le_eq_done hpageSize, u32le_eq_done hkernelAddr, u32le_eq_done hramdiskAddr,
      u32le_eq_done hvendorRamdiskSize, u32le_eq_done htagsAddr, u32le_eq_done hheaderSize,
      u32le_eq_done hdtbSize, u64le_eq_done hdtbAddr, htable, hnum, hentry, hbootconfig]
    rfl

theorem VendorBootImgHdrV3.parse (h : VendorBootImgHdrV3) (hstands : Stands bytes 0 (h.fields 3))
    (hsize : vendorHeaderV3Size ≤ bytes.length) : parseVendorBootHeader bytes = ok h.parsed := by
  have hsupported : vendorBootFormat.supported 3 := ⟨by decide, by decide⟩
  obtain ⟨hholds, hread⟩ := h.read hstands hsupported hsize
  rw [parseVendorBootHeader_of_holds hholds]
  exact hread 0 0 0 0 (if_neg (by decide)) (if_neg (by decide)) (if_neg (by decide))
    (if_neg (by decide))

theorem VendorBootImgHdrV4.parse (h : VendorBootImgHdrV4) (hstands : Stands bytes 0 (h.fields 4))
    (hsize : vendorHeaderV4Size ≤ bytes.length) : parseVendorBootHeader bytes = ok h.parsed := by
  have hsupported : vendorBootFormat.supported 4 := ⟨by decide, by decide⟩
  obtain ⟨hbase, htable⟩ := stands_append.mp hstands
  rw [VendorBootImgHdrV3.length_fields] at htable
  simp only [Stands, length_le32, vendorHeaderV3Size, Nat.reduceAdd, and_true] at htable
  obtain ⟨htableSize, hentryNum, hentrySize, hbootconfigSize⟩ := htable
  obtain ⟨hholds, hread⟩ := h.toVendorBootImgHdrV3.read hbase hsupported hsize
  rw [parseVendorBootHeader_of_holds hholds]
  exact hread _ _ _ _ ((if_pos (by decide)).trans (u32le_eq_done htableSize))
    ((if_pos (by decide)).trans (u32le_eq_done hentryNum))
    ((if_pos (by decide)).trans (u32le_eq_done hentrySize))
    ((if_pos (by decide)).trans (u32le_eq_done hbootconfigSize))

/-- A vendor boot image header is read back, whatever follows it. -/
theorem VendorBootImgHdr.parse (h : VendorBootImgHdr) (rest : List UInt8) :
    parseVendorBootHeader (h.fields.flatten ++ rest) = ok h.parsed := by
  have hstands := stands_fields h.fields rest
  have hlength : h.fields.flatten.length ≤ (h.fields.flatten ++ rest).length := by
    rw [List.length_append]
    exact Nat.le_add_right _ _
  cases h with
  | v3 h => exact h.parse hstands (h.length_fields 3 ▸ hlength)
  | v4 h => exact h.parse hstands (h.length_fields 4 ▸ hlength)

end Read

/-! ### The whole parser -/

/-- A parser that is not changed by a cut behind the header does not see what is cut off. -/
theorem HeaderFormat.local_of_take {f : HeaderFormat} {H : Type}
    {parse : List UInt8 → Fallible BootParseError H} (hoffset : f.versionOffset + 4 ≤ f.minimum)
    (hminimum : ∀ version, f.minimum ≤ f.size version)
    (htake : ∀ bytes k, f.minimum ≤ k →
      (∀ version, u32le bytes f.versionOffset = .done version → f.size version ≤ k) →
      parse (bytes.take k) = parse bytes)
    {bytes bytes' : List UInt8} {version : UInt32}
    (hversion : u32le bytes f.versionOffset = .done version)
    (hsame : bytes'.take (f.size version) = bytes.take (f.size version)) :
    parse bytes' = parse bytes := by
  have hfield := hoffset.trans (hminimum version)
  have hversion' : u32le bytes' f.versionOffset = .done version := by
    rw [← u32le_take bytes' hfield, hsame, u32le_take bytes hfield, hversion]
  have hcut : ∀ cs, u32le cs f.versionOffset = .done version →
      parse (cs.take (f.size version)) = parse cs := by
    intro cs hcs
    apply htake cs _ (hminimum version)
    intro version' hversion'
    rw [hcs, Outcome.done.injEq] at hversion'
    rw [hversion']
  rw [← hcut bytes hversion, ← hcut bytes' hversion', hsame]

/-- **Boot header parsing is exact and local.** -/
theorem parseHeaders_exact :
    bootFormat.Exact parseBootHeader BootImgHdr.fields BootImgHdr.parsed ∧
      vendorBootFormat.Exact parseVendorBootHeader VendorBootImgHdr.fields
        VendorBootImgHdr.parsed := by
  constructor
  · refine ⟨?_, parseBootHeader_accepts, BootImgHdr.parse, ?_⟩
    · intro bytes
      obtain ⟨result, hrun, -⟩ := parseBootHeader_stops bytes
      exact ⟨result, hrun⟩
    · intro bytes bytes' version hversion hsame
      exact HeaderFormat.local_of_take (by decide) headerV3Size_le
        (fun bytes _ => parseBootHeader_take bytes) hversion hsame
  · refine ⟨?_, parseVendorBootHeader_accepts, VendorBootImgHdr.parse, ?_⟩
    · intro bytes
      obtain ⟨result, hrun, -⟩ := parseVendorBootHeader_stops bytes
      exact ⟨result, hrun⟩
    · intro bytes bytes' version hversion hsame
      exact HeaderFormat.local_of_take (by decide) vendorHeaderV3Size_le
        (fun bytes _ => parseVendorBootHeader_take bytes) hversion hsame

/-- A header of version 3, which has no page size, is given one that is not zero. -/
theorem parseBootHeader_pageSize :
    ∃ header, parseBootHeader (BootImgHdr.v3 ⟨0, 4096, 0, 1580, List.Vector.replicate 16 0,
        List.Vector.replicate 1536 0⟩).fields.flatten = ok header ∧
      header.headerVersion = 3 ∧ header.pageSize ≠ 0 := by
  have hparse := (BootImgHdr.v3 ⟨0, 4096, 0, 1580, List.Vector.replicate 16 0,
    List.Vector.replicate 1536 0⟩).parse []
  rw [List.append_nil] at hparse
  exact ⟨_, hparse, rfl, by decide⟩

end ImgTools
