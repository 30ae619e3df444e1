import ImgTools.BootHeader

/-!
# A boot header is local

The two parsers make the same checks, with the constants of their format, before
they read fields. The bytes behind the header of the recorded version take no part
in either: a check of a length that fails on a prefix fails on the whole in the same
way, and every field that is then read lies in the header.
-/

namespace ImgTools

open Exec Fallible

def vendorBootHeaderSize (version : UInt32) : Nat :=
  if version ≥ 4 then vendorHeaderV4Size else vendorHeaderV3Size

theorem bootHeaderSize_le (version : UInt32) : bootHeaderSize version ≤ headerV2Size := by
  unfold bootHeaderSize
  split_ifs <;> decide

theorem vendorHeaderV3Size_le (version : UInt32) :
    vendorHeaderV3Size ≤ vendorBootHeaderSize version := by
  unfold vendorBootHeaderSize
  split_ifs <;> decide

theorem vendorBootHeaderSize_le (version : UInt32) :
    vendorBootHeaderSize version ≤ vendorHeaderV4Size := by
  unfold vendorBootHeaderSize
  split_ifs <;> decide

/-! ### The checks of a header -/

/-- Where a format keeps the version of a header, and what each version needs. -/
structure HeaderFormat where
  magic : List UInt8
  versionOffset : Nat
  supported : UInt32 → Prop
  minimum : Nat
  size : UInt32 → Nat

def bootFormat : HeaderFormat where
  magic := bootMagic
  versionOffset := 40
  supported := fun version => version ≤ maxHeaderVersion
  minimum := headerV3Size
  size := bootHeaderSize

def vendorBootFormat : HeaderFormat where
  magic := vendorBootMagic
  versionOffset := 8
  supported := fun version => 3 ≤ version ∧ version ≤ maxHeaderVersion
  minimum := vendorHeaderV3Size
  size := vendorBootHeaderSize

/-- The bytes start with the magic and hold a whole header of the version they record. -/
structure HeaderFormat.Holds (f : HeaderFormat) (bytes : List UInt8) (version : UInt32) :
    Prop where
  magic : f.magic <+: bytes
  recorded : u32le bytes f.versionOffset = .done version
  supported : f.supported version
  minimum : f.minimum ≤ bytes.length
  size : f.size version ≤ bytes.length

/-- The checks that the two parsers make before they read the fields of a version. -/
def HeaderFormat.check (f : HeaderFormat) (unsupported : UInt32 → Prop)
    [DecidablePred unsupported] {H : Type} (bytes : List UInt8)
    (body : UInt32 → Fallible BootParseError H) : Fallible BootParseError H := do
  failIf (bytes.length < f.minimum) (.tooSmall bytes.length f.minimum)
  let magic ← slice bytes 0 8
  failIf (magic ≠ f.magic) (.badMagic magic)
  let version ← u32le bytes f.versionOffset
  failIf (unsupported version) (.unsupportedVersion version)
  failIf (bytes.length < f.size version) (.truncated (f.size version) bytes.length)
  body version

def parseBootFields (bytes : List UInt8) (version : UInt32) : Fallible BootParseError BootHeader :=
  if version ≥ 3 then liftM (parseModernHeader bytes version (bootHeaderSize version))
  else liftM (parseLegacyHeader bytes version (bootHeaderSize version))

theorem parseBootHeader_eq (bytes : List UInt8) :
    parseBootHeader bytes =
      bootFormat.check (· > maxHeaderVersion) bytes (parseBootFields bytes) :=
  rfl

def parseVendorBootFields (bytes : List UInt8) (version : UInt32) :
    Fallible BootParseError VendorBootHeader := do
  let encodedSize ← u32le bytes 2096
  let pageSize ← u32le bytes 12
  let kernelAddr ← u32le bytes 16
  let ramdiskAddr ← u32le bytes 20
  let vendorRamdiskSize ← u32le bytes 24
  let tagsAddr ← u32le bytes 2076
  let dtbSize ← u32le bytes 2100
  let dtbAddr ← u64le bytes 2104
  let ramdiskTableSize ← u32leIf (version ≥ 4) bytes 2112
  let ramdiskTableEntryNum ← u32leIf (version ≥ 4) bytes 2116
  let ramdiskTableEntrySize ← u32leIf (version ≥ 4) bytes 2120
  let bootconfigSize ← u32leIf (version ≥ 4) bytes 2124
  return {
    headerVersion := version
    headerSize :=
      if encodedSize = 0 then UInt32.ofNat (vendorBootHeaderSize version) else encodedSize
    pageSize := pageSize
    kernelAddr := kernelAddr
    ramdiskAddr := ramdiskAddr
    vendorRamdiskSize := vendorRamdiskSize
    tagsAddr := tagsAddr
    dtbSize := dtbSize
    dtbAddr := dtbAddr
    ramdiskTableSize := ramdiskTableSize
    ramdiskTableEntryNum := ramdiskTableEntryNum
    ramdiskTableEntrySize := ramdiskTableEntrySize
    bootconfigSize := bootconfigSize }

theorem parseVendorBootHeader_eq (bytes : List UInt8) :
    parseVendorBootHeader bytes =
      vendorBootFormat.check (fun version => version < 3 ∨ version > maxHeaderVersion) bytes
        (parseVendorBootFields bytes) :=
  rfl

section Check

variable {f : HeaderFormat} {unsupported : UInt32 → Prop} [DecidablePred unsupported] {H : Type}
  {bytes : List UInt8} {body : UInt32 → Fallible BootParseError H}

/-- The first bytes are the magic exactly when the bytes start with it. -/
theorem slice_eq_magic_iff {magic : List UInt8} (hlength : magic.length = 8) :
    slice bytes 0 8 = .done magic ↔ magic <+: bytes := by
  constructor
  · intro h
    unfold slice at h
    split_ifs at h
    obtain rfl := Outcome.done.inj h
    exact List.take_prefix 8 bytes
  · rintro ⟨rest, rfl⟩
    have hslice := slice_append [] magic rest
    rw [List.nil_append, List.length_nil, Nat.zero_add, hlength] at hslice
    exact hslice

variable (hmagic : f.magic.length = 8) (hsupported : ∀ version, f.supported version ↔
  ¬ unsupported version)

include hmagic hsupported

theorem HeaderFormat.check_of_holds {version : UInt32} (h : f.Holds bytes version) :
    f.check unsupported bytes body = body version := by
  unfold check
  rw [failIf, if_neg (Nat.not_lt.mpr h.minimum), (slice_eq_magic_iff hmagic).mpr h.magic,
    h.recorded]
  simp only [ok_bind, lift_done]
  rw [failIf, if_neg (not_not_intro rfl), ok_bind, failIf,
    if_neg ((hsupported version).mp h.supported), ok_bind, failIf,
    if_neg (Nat.not_lt.mpr h.size), ok_bind]

theorem HeaderFormat.holds_of_check {header : H}
    (h : f.check unsupported bytes body = ok header) :
    ∃ version, f.Holds bytes version ∧ body version = ok header := by
  unfold check at h
  obtain ⟨_, hminimum, h⟩ := bind_eq_ok.mp h
  obtain ⟨magic, hslice, h⟩ := bind_eq_ok.mp h
  obtain ⟨_, hequal, h⟩ := bind_eq_ok.mp h
  obtain ⟨version, hversion, h⟩ := bind_eq_ok.mp h
  obtain ⟨_, hknown, h⟩ := bind_eq_ok.mp h
  obtain ⟨_, hsize, hbody⟩ := bind_eq_ok.mp h
  obtain rfl := not_not.mp (failIf_eq_ok.mp hequal)
  refine ⟨version, ⟨?_, lift_eq_ok.mp hversion, ?_, ?_, ?_⟩, hbody⟩
  · exact (slice_eq_magic_iff hmagic).mp (lift_eq_ok.mp hslice)
  · exact (hsupported version).mpr (failIf_eq_ok.mp hknown)
  · exact Nat.not_lt.mp (failIf_eq_ok.mp hminimum)
  · exact Nat.not_lt.mp (failIf_eq_ok.mp hsize)

/-- What passes the checks is accepted, where the fields of a whole header can be read. -/
theorem HeaderFormat.check_accepts
    (hends : ∀ version, f.size version ≤ bytes.length → ∃ header, body version = ok header) :
    (∃ header, f.check unsupported bytes body = ok header) ↔ ∃ version, f.Holds bytes version := by
  constructor
  · rintro ⟨header, h⟩
    obtain ⟨version, hholds, -⟩ := holds_of_check hmagic hsupported h
    exact ⟨version, hholds⟩
  · rintro ⟨version, h⟩
    rw [check_of_holds hmagic hsupported h]
    exact hends version h.size

end Check

/-! ### The header of a prefix -/

theorem failIf_length_take {ε : Type} (bytes : List UInt8) {k minimum : Nat}
    (hminimum : minimum ≤ k) (e : Nat → ε) :
    failIf ((bytes.take k).length < minimum) (e (bytes.take k).length) =
      failIf (bytes.length < minimum) (e bytes.length) := by
  rcases Nat.le_total bytes.length k with hshort | hlong
  · rw [List.take_of_length_le hshort]
  · have hlength : (bytes.take k).length = k := List.length_take_of_le hlong
    unfold failIf
    rw [if_neg (by omega), if_neg (by omega)]

section Prefix

variable (bytes : List UInt8) {k : Nat} {version : UInt32}

/-- The checks and the fields of a prefix that holds the header of the recorded version. -/
theorem HeaderFormat.check_take {f : HeaderFormat} {unsupported : UInt32 → Prop}
    [DecidablePred unsupported] {H : Type} {body body' : UInt32 → Fallible BootParseError H}
    (hminimum : f.minimum ≤ k) (hmagic : 8 ≤ k) (hversion : f.versionOffset + 4 ≤ k)
    (hsize : ∀ version, u32le bytes f.versionOffset = .done version → f.size version ≤ k)
    (hbody : ∀ version, f.size version ≤ k → body version = body' version) :
    f.check unsupported (bytes.take k) body = f.check unsupported bytes body' := by
  unfold check
  rw [failIf_length_take bytes hminimum (BootParseError.tooSmall · f.minimum),
    slice_take bytes hmagic, u32le_take bytes hversion]
  refine bind_congr fun _ => bind_congr fun _ => bind_congr fun _ => ?_
  refine lift_bind_congr fun version hrecorded => bind_congr fun _ => ?_
  have hrequired := hsize version hrecorded
  rw [failIf_length_take bytes hrequired (BootParseError.truncated (f.size version) ·),
    hbody version hrequired]

theorem parseModernHeader_take (hsize : bootHeaderSize version ≤ k) (required : Nat) :
    parseModernHeader (bytes.take k) version required =
      parseModernHeader bytes version required := by
  have hall : 1580 ≤ k := (headerV3Size_le version).trans hsize
  have hsignature : version ≥ 4 → 1580 + 4 ≤ k := fun h => (headerV4Size_le h).trans hsize
  unfold parseModernHeader
  simp (disch := omega) only [u32le_take bytes, u32leIf_take bytes hsignature]

theorem parseLegacyHeader_take (hlegacy : version < 3) (hsize : bootHeaderSize version ≤ k)
    (required : Nat) :
    parseLegacyHeader (bytes.take k) version required =
      parseLegacyHeader bytes version required := by
  have hall : 1580 ≤ k := (headerV3Size_le version).trans hsize
  have hone : version ≥ 1 → 1648 ≤ k := fun h => (headerV1Size_le hlegacy h).trans hsize
  have htwo : version ≥ 2 → 1652 + 8 ≤ k := fun h => (headerV2Size_le hlegacy h).trans hsize
  have hdtboSize : version ≥ 1 → 1632 + 4 ≤ k := fun h => Nat.le_trans (by decide) (hone h)
  have hdtboOffset : version ≥ 1 → 1636 + 8 ≤ k := fun h => Nat.le_trans (by decide) (hone h)
  have hdtbSize : version ≥ 2 → 1648 + 4 ≤ k := fun h => Nat.le_trans (by decide) (htwo h)
  unfold parseLegacyHeader
  simp (disch := omega) only [u32le_take bytes, u32leIf_take bytes hdtboSize,
    u64leIf_take bytes hdtboOffset, u32leIf_take bytes hdtbSize, u64leIf_take bytes htwo]

theorem parseBootFields_take (hsize : bootHeaderSize version ≤ k) :
    parseBootFields (bytes.take k) version = parseBootFields bytes version := by
  unfold parseBootFields
  split
  · rw [parseModernHeader_take bytes hsize]
  · next hlegacy => rw [parseLegacyHeader_take bytes (UInt32.not_le.mp hlegacy) hsize]

theorem parseVendorBootFields_take (hsize : vendorBootHeaderSize version ≤ k) :
    parseVendorBootFields (bytes.take k) version = parseVendorBootFields bytes version := by
  have hall : 2112 ≤ k := (vendorHeaderV3Size_le version).trans hsize
  have htable : ∀ offset, offset + 4 ≤ 2128 → version ≥ 4 → offset + 4 ≤ k := by
    intro offset hle h
    rw [vendorBootHeaderSize, if_pos h] at hsize
    exact hle.trans hsize
  unfold parseVendorBootFields
  simp (disch := omega) only [u32le_take bytes, u64le_take bytes,
    u32leIf_take bytes (htable 2112 (by decide)),
    u32leIf_take bytes (htable 2116 (by decide)),
    u32leIf_take bytes (htable 2120 (by decide)),
    u32leIf_take bytes (htable 2124 (by decide))]

/-- **The header of a prefix** that holds the header of the recorded version. -/
theorem parseBootHeader_take (hminimum : headerV3Size ≤ k)
    (hsize : ∀ version, u32le bytes 40 = .done version → bootHeaderSize version ≤ k) :
    parseBootHeader (bytes.take k) = parseBootHeader bytes := by
  have hall : 1580 ≤ k := hminimum
  rw [parseBootHeader_eq, parseBootHeader_eq]
  apply HeaderFormat.check_take bytes hminimum (by omega) (Nat.le_trans (by decide) hall) hsize
  intro version hrequired
  exact parseBootFields_take bytes hrequired

theorem parseVendorBootHeader_take (hminimum : vendorHeaderV3Size ≤ k)
    (hsize : ∀ version, u32le bytes 8 = .done version → vendorBootHeaderSize version ≤ k) :
    parseVendorBootHeader (bytes.take k) = parseVendorBootHeader bytes := by
  have hall : 2112 ≤ k := hminimum
  rw [parseVendorBootHeader_eq, parseVendorBootHeader_eq]
  apply HeaderFormat.check_take bytes hminimum (by omega) (Nat.le_trans (by decide) hall) hsize
  intro version hrequired
  exact parseVendorBootFields_take bytes hrequired

end Prefix

end ImgTools
