import ImgTools.Binary
import ImgTools.Fallible

/-!
# Boot image headers

`parse_boot_header` and `parse_vendor_boot_header` of `boot.rs`. The two headers
keep all the fields of the source.
-/

namespace ImgTools

open Exec Fallible

def bootMagic : List UInt8 := [0x41, 0x4e, 0x44, 0x52, 0x4f, 0x49, 0x44, 0x21]

def vendorBootMagic : List UInt8 := [0x56, 0x4e, 0x44, 0x52, 0x42, 0x4f, 0x4f, 0x54]

def headerV0Size : Nat := 1632

def headerV1Size : Nat := 1648

def headerV2Size : Nat := 1660

def headerV3Size : Nat := 1580

def headerV4Size : Nat := 1584

def vendorHeaderV3Size : Nat := 2112

def vendorHeaderV4Size : Nat := 2128

def maxHeaderVersion : UInt32 := 4

inductive BootParseError where
  | tooSmall (actual minimum : Nat)
  | badMagic (magic : List UInt8)
  | unsupportedVersion (version : UInt32)
  | truncated (required actual : Nat)
deriving DecidableEq, Repr

structure BootHeader where
  headerVersion : UInt32
  headerSize : UInt32
  pageSize : UInt32
  kernelSize : UInt32
  kernelAddr : UInt32
  ramdiskSize : UInt32
  ramdiskAddr : UInt32
  secondSize : UInt32
  secondAddr : UInt32
  tagsAddr : UInt32
  osVersionRaw : UInt32
  recoveryDtboSize : UInt32
  recoveryDtboOffset : UInt64
  dtbSize : UInt32
  dtbAddr : UInt64
  signatureSize : UInt32
deriving DecidableEq, Repr

structure VendorBootHeader where
  headerVersion : UInt32
  headerSize : UInt32
  pageSize : UInt32
  kernelAddr : UInt32
  ramdiskAddr : UInt32
  vendorRamdiskSize : UInt32
  tagsAddr : UInt32
  dtbSize : UInt32
  dtbAddr : UInt64
  ramdiskTableSize : UInt32
  ramdiskTableEntryNum : UInt32
  ramdiskTableEntrySize : UInt32
  bootconfigSize : UInt32
deriving DecidableEq, Repr

def bootHeaderSize (version : UInt32) : Nat :=
  if version = 0 then headerV0Size
  else if version = 1 then headerV1Size
  else if version = 2 then headerV2Size
  else if version = 3 then headerV3Size
  else headerV4Size

def parseModernHeader (bytes : List UInt8) (version : UInt32) (required : Nat) :
    Outcome BootHeader := do
  let encodedSize ← u32le bytes 20
  let kernelSize ← u32le bytes 8
  let ramdiskSize ← u32le bytes 12
  let osVersionRaw ← u32le bytes 16
  let signatureSize ← u32leIf (version ≥ 4) bytes 1580
  return {
    headerVersion := version
    headerSize := max encodedSize (UInt32.ofNat required)
    pageSize := 4096
    kernelSize := kernelSize
    kernelAddr := 0
    ramdiskSize := ramdiskSize
    ramdiskAddr := 0
    secondSize := 0
    secondAddr := 0
    tagsAddr := 0
    osVersionRaw := osVersionRaw
    recoveryDtboSize := 0
    recoveryDtboOffset := 0
    dtbSize := 0
    dtbAddr := 0
    signatureSize := signatureSize }

def parseLegacyHeader (bytes : List UInt8) (version : UInt32) (required : Nat) :
    Outcome BootHeader := do
  let pageSize ← u32le bytes 36
  let kernelSize ← u32le bytes 8
  let kernelAddr ← u32le bytes 12
  let ramdiskSize ← u32le bytes 16
  let ramdiskAddr ← u32le bytes 20
  let secondSize ← u32le bytes 24
  let secondAddr ← u32le bytes 28
  let tagsAddr ← u32le bytes 32
  let osVersionRaw ← u32le bytes 44
  let recoveryDtboSize ← u32leIf (version ≥ 1) bytes 1632
  let recoveryDtboOffset ← u64leIf (version ≥ 1) bytes 1636
  let dtbSize ← u32leIf (version ≥ 2) bytes 1648
  let dtbAddr ← u64leIf (version ≥ 2) bytes 1652
  return {
    headerVersion := version
    headerSize := UInt32.ofNat required
    pageSize := pageSize
    kernelSize := kernelSize
    kernelAddr := kernelAddr
    ramdiskSize := ramdiskSize
    ramdiskAddr := ramdiskAddr
    secondSize := secondSize
    secondAddr := secondAddr
    tagsAddr := tagsAddr
    osVersionRaw := osVersionRaw
    recoveryDtboSize := recoveryDtboSize
    recoveryDtboOffset := recoveryDtboOffset
    dtbSize := dtbSize
    dtbAddr := dtbAddr
    signatureSize := 0 }

def parseBootHeader (bytes : List UInt8) : Fallible BootParseError BootHeader := do
  failIf (bytes.length < headerV3Size) (.tooSmall bytes.length headerV3Size)
  let magic ← slice bytes 0 8
  failIf (magic ≠ bootMagic) (.badMagic magic)
  let version ← u32le bytes 40
  failIf (version > maxHeaderVersion) (.unsupportedVersion version)
  let required := bootHeaderSize version
  failIf (bytes.length < required) (.truncated required bytes.length)
  if version ≥ 3 then
    parseModernHeader bytes version required
  else
    parseLegacyHeader bytes version required

def parseVendorBootHeader (bytes : List UInt8) : Fallible BootParseError VendorBootHeader := do
  failIf (bytes.length < vendorHeaderV3Size) (.tooSmall bytes.length vendorHeaderV3Size)
  let magic ← slice bytes 0 8
  failIf (magic ≠ vendorBootMagic) (.badMagic magic)
  let version ← u32le bytes 8
  failIf (version < 3 ∨ version > maxHeaderVersion) (.unsupportedVersion version)
  let required := if version ≥ 4 then vendorHeaderV4Size else vendorHeaderV3Size
  failIf (bytes.length < required) (.truncated required bytes.length)
  let encodedSize ← u32le bytes 2096
  let pageSize ← u32le bytes 12
  let kernelAddr ← u32le bytes 16
  let ramdiskAddr ← u32le bytes 20
  let vendorRamdiskSize ← u32le bytes 24
  let tagsAddr ← u32le bytes 2076
  let dtbSize ← u32le bytes 2100
  let dtbAddr ← u64le bytes 2104
  let ramdiskTableSize ← u32leIf (version ≥ 4) bytes 2112
  let ramdiskTableEntryNum ← u32leIf (version ≥ 4) bytes 2116
  let ramdiskTableEntrySize ← u32leIf (version ≥ 4) bytes 2120
  let bootconfigSize ← u32leIf (version ≥ 4) bytes 2124
  return {
    headerVersion := version
    headerSize := if encodedSize = 0 then UInt32.ofNat required else encodedSize
    pageSize := pageSize
    kernelAddr := kernelAddr
    ramdiskAddr := ramdiskAddr
    vendorRamdiskSize := vendorRamdiskSize
    tagsAddr := tagsAddr
    dtbSize := dtbSize
    dtbAddr := dtbAddr
    ramdiskTableSize := ramdiskTableSize
    ramdiskTableEntryNum := ramdiskTableEntryNum
    ramdiskTableEntrySize := ramdiskTableEntrySize
    bootconfigSize := bootconfigSize }

/-- What the layout of a version 3 or 4 image takes from its header. -/
structure BootHeader.Modern (header : BootHeader) : Prop where
  version : 3 ≤ header.headerVersion
  headerSize : 0 < header.headerSize.toNat
  secondSize : header.secondSize = 0
  recoveryDtboSize : header.recoveryDtboSize = 0
  dtbSize : header.dtbSize = 0

/-- A header that is parsed is one of the two, of the version its bytes record. -/
theorem parseBootHeader_eq_ok {bytes : List UInt8} {header : BootHeader}
    (h : parseBootHeader bytes = ok header) :
    ∃ version,
      (3 ≤ version ∧
        parseModernHeader bytes version (bootHeaderSize version) = .done header) ∨
      (version < 3 ∧
        parseLegacyHeader bytes version (bootHeaderSize version) = .done header) := by
  unfold parseBootHeader at h
  obtain ⟨-, -, h⟩ := bind_eq_ok.mp h
  obtain ⟨magic, -, h⟩ := bind_eq_ok.mp h
  obtain ⟨-, -, h⟩ := bind_eq_ok.mp h
  obtain ⟨version, -, h⟩ := bind_eq_ok.mp h
  obtain ⟨-, -, h⟩ := bind_eq_ok.mp h
  obtain ⟨-, -, h⟩ := bind_eq_ok.mp h
  refine ⟨version, ?_⟩
  split at h
  · next hmodern => exact Or.inl ⟨hmodern, lift_eq_ok.mp h⟩
  · next hlegacy => exact Or.inr ⟨UInt32.not_le.mp hlegacy, lift_eq_ok.mp h⟩

theorem bootHeaderSize_pos (version : UInt32) :
    0 < (UInt32.ofNat (bootHeaderSize version)).toNat := by
  unfold bootHeaderSize
  split_ifs <;> decide

/-- A parsed header of version 3 or 4 declares no section of the older versions. -/
theorem parseBootHeader_modern {bytes : List UInt8} {header : BootHeader}
    (h : parseBootHeader bytes = ok header) (hversion : 3 ≤ header.headerVersion) :
    header.Modern := by
  obtain ⟨version, ⟨hmodern, hparse⟩ | ⟨hlegacy, hparse⟩⟩ := parseBootHeader_eq_ok h
  · unfold parseModernHeader at hparse
    simp only [Outcome.bind_eq_done, Outcome.pure_eq, Outcome.done.injEq] at hparse
    obtain ⟨encodedSize, -, _, -, _, -, _, -, _, -, rfl⟩ := hparse
    refine ⟨hversion, ?_, rfl, rfl, rfl⟩
    have hpos := bootHeaderSize_pos version
    have hmax : max encodedSize (UInt32.ofNat (bootHeaderSize version)) =
        if encodedSize ≤ UInt32.ofNat (bootHeaderSize version) then
          UInt32.ofNat (bootHeaderSize version) else encodedSize := rfl
    simp only [hmax]
    split
    · exact hpos
    · next hlarge =>
      rw [UInt32.le_iff_toNat_le] at hlarge
      omega
  · unfold parseLegacyHeader at hparse
    simp only [Outcome.bind_eq_done, Outcome.pure_eq, Outcome.done.injEq] at hparse
    obtain ⟨_, -, _, -, _, -, _, -, _, -, _, -, _, -, _, -, _, -, _, -, _, -, _, -, _, -, rfl⟩ :=
      hparse
    exact absurd hversion (UInt32.not_le.mpr hlegacy)

/-! ### Parsing stops normally -/

section Sizes

variable {version : UInt32}

theorem headerV3Size_le (version : UInt32) : headerV3Size ≤ bootHeaderSize version := by
  unfold bootHeaderSize
  split_ifs <;> decide

theorem headerV4Size_le (h : 4 ≤ version) : headerV4Size ≤ bootHeaderSize version := by
  unfold bootHeaderSize
  have hne : version ≠ 3 := by rintro rfl; exact absurd h (by decide)
  rw [if_neg hne]
  split_ifs <;> decide

theorem version_of_legacy (h : version < 3) : version = 0 ∨ version = 1 ∨ version = 2 := by
  have hlt : version.toNat < 3 := UInt32.lt_iff_toNat_lt.mp h
  simp only [← UInt32.toNat_inj, UInt32.reduceToNat]
  omega

theorem headerV1Size_le (hlegacy : version < 3) (h : 1 ≤ version) :
    headerV1Size ≤ bootHeaderSize version := by
  rcases version_of_legacy hlegacy with rfl | rfl | rfl
  · exact absurd h (by decide)
  · decide
  · decide

theorem headerV2Size_le (hlegacy : version < 3) (h : 2 ≤ version) :
    headerV2Size ≤ bootHeaderSize version := by
  rcases version_of_legacy hlegacy with rfl | rfl | rfl
  · exact absurd h (by decide)
  · exact absurd h (by decide)
  · decide

variable {bytes : List UInt8} (hlength : bootHeaderSize version ≤ bytes.length)

include hlength

theorem parseModernHeader_ends (required : Nat) :
    (parseModernHeader bytes version required).Ends := by
  have hall : 1580 ≤ bytes.length := (headerV3Size_le version).trans hlength
  have hsignature : version ≥ 4 → 1584 ≤ bytes.length := fun h => (headerV4Size_le h).trans hlength
  unfold parseModernHeader
  refine (u32le_ends (by omega)).bind fun _ _ => ?_
  refine (u32le_ends (by omega)).bind fun _ _ => ?_
  refine (u32le_ends (by omega)).bind fun _ _ => ?_
  refine (u32le_ends (by omega)).bind fun _ _ => ?_
  exact (u32leIf_ends hsignature).bind fun _ _ => .done _

theorem parseLegacyHeader_ends (hlegacy : version < 3) (required : Nat) :
    (parseLegacyHeader bytes version required).Ends := by
  have hall : 1580 ≤ bytes.length := (headerV3Size_le version).trans hlength
  have hone : version ≥ 1 → 1648 ≤ bytes.length := fun h =>
    (headerV1Size_le hlegacy h).trans hlength
  have htwo : version ≥ 2 → 1660 ≤ bytes.length := fun h =>
    (headerV2Size_le hlegacy h).trans hlength
  unfold parseLegacyHeader
  repeat refine (u32le_ends (by omega)).bind fun _ _ => ?_
  refine (u32leIf_ends fun h => ?_).bind fun _ _ => ?_
  · exact Nat.le_trans (by decide) (hone h)
  refine (u64leIf_ends fun h => ?_).bind fun _ _ => ?_
  · exact Nat.le_trans (by decide) (hone h)
  refine (u32leIf_ends fun h => ?_).bind fun _ _ => ?_
  · exact Nat.le_trans (by decide) (htwo h)
  exact (u64leIf_ends htwo).bind fun _ _ => .done _

end Sizes

theorem parseBootHeader_stops (bytes : List UInt8) :
    Stops (parseBootHeader bytes) fun _ => True := by
  unfold parseBootHeader
  refine Stops.failIf.bind fun _ hminimum => ?_
  have hall : 1580 ≤ bytes.length := Nat.not_lt.mp hminimum
  refine (Stops.lift (slice_ends (by omega) (by omega))).bind fun _ _ => ?_
  refine Stops.failIf.bind fun _ _ => ?_
  refine (Stops.lift (u32le_ends (by omega))).bind fun version _ => ?_
  refine Stops.failIf.bind fun _ _ => ?_
  refine Stops.failIf.bind fun _ hrequired => ?_
  have hlength : bootHeaderSize version ≤ bytes.length := Nat.not_lt.mp hrequired
  split
  · exact (Stops.lift (parseModernHeader_ends hlength _)).mono fun _ _ => trivial
  · next hlegacy =>
    exact (Stops.lift (parseLegacyHeader_ends hlength (UInt32.not_le.mp hlegacy) _)).mono
      fun _ _ => trivial

theorem parseVendorBootHeader_stops (bytes : List UInt8) :
    Stops (parseVendorBootHeader bytes) fun _ => True := by
  unfold parseVendorBootHeader
  refine Stops.failIf.bind fun _ hminimum => ?_
  have hall : 2112 ≤ bytes.length := Nat.not_lt.mp hminimum
  refine (Stops.lift (slice_ends (by omega) (by omega))).bind fun _ _ => ?_
  refine Stops.failIf.bind fun _ _ => ?_
  refine (Stops.lift (u32le_ends (by omega))).bind fun version _ => ?_
  refine Stops.failIf.bind fun _ _ => ?_
  refine Stops.failIf.bind fun _ hrequired => ?_
  have htable : version ≥ 4 → 2128 ≤ bytes.length := by
    intro h
    rw [if_pos h] at hrequired
    exact Nat.not_lt.mp hrequired
  repeat refine (Stops.lift (u32le_ends (by omega))).bind fun _ _ => ?_
  refine (Stops.lift (u64le_ends (by omega))).bind fun _ _ => ?_
  have hfield : ∀ {offset}, offset + 4 ≤ 2128 → version ≥ 4 → offset + 4 ≤ bytes.length :=
    fun hle h => hle.trans (htable h)
  refine (Stops.lift (u32leIf_ends (hfield (by decide)))).bind fun _ _ => ?_
  refine (Stops.lift (u32leIf_ends (hfield (by decide)))).bind fun _ _ => ?_
  refine (Stops.lift (u32leIf_ends (hfield (by decide)))).bind fun _ _ => ?_
  exact (Stops.lift (u32leIf_ends (hfield (by decide)))).bind fun _ _ => .ok trivial

end ImgTools
