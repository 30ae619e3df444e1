import Mathlib.Data.Vector.Basic
import ImgTools.BootHeader

/-!
# The headers of the boot image format

The AOSP header of each version, with all its fields, and its packed encoding: the
fields one behind the other, without padding. `parsed` says what the parser makes of
a header: its fields, and a neutral value for each field that the version lacks.
-/

namespace ImgTools

/-! ### Boot images -/

structure BootImgHdrV0 where
  kernelSize : UInt32
  kernelAddr : UInt32
  ramdiskSize : UInt32
  ramdiskAddr : UInt32
  secondSize : UInt32
  secondAddr : UInt32
  tagsAddr : UInt32
  pageSize : UInt32
  osVersion : UInt32
  name : List.Vector UInt8 16
  cmdline : List.Vector UInt8 512
  id : List.Vector UInt8 32
  extraCmdline : List.Vector UInt8 1024

structure BootImgHdrV1 extends BootImgHdrV0 where
  recoveryDtboSize : UInt32
  recoveryDtboOffset : UInt64
  headerSize : UInt32

structure BootImgHdrV2 extends BootImgHdrV1 where
  dtbSize : UInt32
  dtbAddr : UInt64

structure BootImgHdrV3 where
  kernelSize : UInt32
  ramdiskSize : UInt32
  osVersion : UInt32
  headerSize : UInt32
  reserved : List.Vector UInt8 16
  cmdline : List.Vector UInt8 1536

structure BootImgHdrV4 extends BootImgHdrV3 where
  signatureSize : UInt32

/-- The fields that versions 0, 1 and 2 share. -/
def BootImgHdrV0.fields (version : UInt32) (h : BootImgHdrV0) : List (List UInt8) :=
  [bootMagic, le32 h.kernelSize, le32 h.kernelAddr, le32 h.ramdiskSize, le32 h.ramdiskAddr,
    le32 h.secondSize, le32 h.secondAddr, le32 h.tagsAddr, le32 h.pageSize, le32 version,
    le32 h.osVersion, h.name.toList, h.cmdline.toList, h.id.toList, h.extraCmdline.toList]

def BootImgHdrV1.fields (version : UInt32) (h : BootImgHdrV1) : List (List UInt8) :=
  h.toBootImgHdrV0.fields version ++
    [le32 h.recoveryDtboSize, le64 h.recoveryDtboOffset, le32 h.headerSize]

def BootImgHdrV2.fields (version : UInt32) (h : BootImgHdrV2) : List (List UInt8) :=
  h.toBootImgHdrV1.fields version ++ [le32 h.dtbSize, le64 h.dtbAddr]

def BootImgHdrV3.fields (version : UInt32) (h : BootImgHdrV3) : List (List UInt8) :=
  [bootMagic, le32 h.kernelSize, le32 h.ramdiskSize, le32 h.osVersion, le32 h.headerSize,
    h.reserved.toList, le32 version, h.cmdline.toList]

def BootImgHdrV4.fields (version : UInt32) (h : BootImgHdrV4) : List (List UInt8) :=
  h.toBootImgHdrV3.fields version ++ [le32 h.signatureSize]

inductive BootImgHdr where
  | v0 (h : BootImgHdrV0)
  | v1 (h : BootImgHdrV1)
  | v2 (h : BootImgHdrV2)
  | v3 (h : BootImgHdrV3)
  | v4 (h : BootImgHdrV4)

def BootImgHdr.fields : BootImgHdr → List (List UInt8)
  | v0 h => h.fields 0
  | v1 h => h.fields 1
  | v2 h => h.fields 2
  | v3 h => h.fields 3
  | v4 h => h.fields 4

def BootHeader.blank : BootHeader where
  headerVersion := 0
  headerSize := 0
  pageSize := 0
  kernelSize := 0
  kernelAddr := 0
  ramdiskSize := 0
  ramdiskAddr := 0
  secondSize := 0
  secondAddr := 0
  tagsAddr := 0
  osVersionRaw := 0
  recoveryDtboSize := 0
  recoveryDtboOffset := 0
  dtbSize := 0
  dtbAddr := 0
  signatureSize := 0

def BootImgHdrV0.parsed (h : BootImgHdrV0) : BootHeader :=
  { BootHeader.blank with
    headerVersion := 0
    headerSize := 1632
    pageSize := h.pageSize
    kernelSize := h.kernelSize
    kernelAddr := h.kernelAddr
    ramdiskSize := h.ramdiskSize
    ramdiskAddr := h.ramdiskAddr
    secondSize := h.secondSize
    secondAddr := h.secondAddr
    tagsAddr := h.tagsAddr
    osVersionRaw := h.osVersion }

def BootImgHdrV1.parsed (h : BootImgHdrV1) : BootHeader :=
  { h.toBootImgHdrV0.parsed with
    headerVersion := 1
    headerSize := 1648
    recoveryDtboSize := h.recoveryDtboSize
    recoveryDtboOffset := h.recoveryDtboOffset }

def BootImgHdrV2.parsed (h : BootImgHdrV2) : BootHeader :=
  { h.toBootImgHdrV1.parsed with
    headerVersion := 2
    headerSize := 1660
    dtbSize := h.dtbSize
    dtbAddr := h.dtbAddr }

/-- The page of versions 3 and 4 is fixed. -/
def BootImgHdrV3.parsed (h : BootImgHdrV3) : BootHeader :=
  { BootHeader.blank with
    headerVersion := 3
    headerSize := max h.headerSize 1580
    pageSize := 4096
    kernelSize := h.kernelSize
    ramdiskSize := h.ramdiskSize
    osVersionRaw := h.osVersion }

def BootImgHdrV4.parsed (h : BootImgHdrV4) : BootHeader :=
  { h.toBootImgHdrV3.parsed with
    headerVersion := 4
    headerSize := max h.headerSize 1584
    signatureSize := h.signatureSize }

def BootImgHdr.parsed : BootImgHdr → BootHeader
  | v0 h => h.parsed
  | v1 h => h.parsed
  | v2 h => h.parsed
  | v3 h => h.parsed
  | v4 h => h.parsed

/-! ### Vendor boot images -/

structure VendorBootImgHdrV3 where
  pageSize : UInt32
  kernelAddr : UInt32
  ramdiskAddr : UInt32
  vendorRamdiskSize : UInt32
  cmdline : List.Vector UInt8 2048
  tagsAddr : UInt32
  name : List.Vector UInt8 16
  headerSize : UInt32
  dtbSize : UInt32
  dtbAddr : UInt64

structure VendorBootImgHdrV4 extends VendorBootImgHdrV3 where
  vendorRamdiskTableSize : UInt32
  vendorRamdiskTableEntryNum : UInt32
  vendorRamdiskTableEntrySize : UInt32
  bootconfigSize : UInt32

def VendorBootImgHdrV3.fields (version : UInt32) (h : VendorBootImgHdrV3) : List (List UInt8) :=
  [vendorBootMagic, le32 version, le32 h.pageSize, le32 h.kernelAddr, le32 h.ramdiskAddr,
    le32 h.vendorRamdiskSize, h.cmdline.toList, le32 h.tagsAddr, h.name.toList,
    le32 h.headerSize, le32 h.dtbSize, le64 h.dtbAddr]

def VendorBootImgHdrV4.fields (version : UInt32) (h : VendorBootImgHdrV4) : List (List UInt8) :=
  h.toVendorBootImgHdrV3.fields version ++
    [le32 h.vendorRamdiskTableSize, le32 h.vendorRamdiskTableEntryNum,
      le32 h.vendorRamdiskTableEntrySize, le32 h.bootconfigSize]

inductive VendorBootImgHdr where
  | v3 (h : VendorBootImgHdrV3)
  | v4 (h : VendorBootImgHdrV4)

def VendorBootImgHdr.fields : VendorBootImgHdr → List (List UInt8)
  | v3 h => h.fields 3
  | v4 h => h.fields 4

/-- The header size that is assumed when none is recorded is that of the version. -/
def VendorBootImgHdrV3.parsed (h : VendorBootImgHdrV3) : VendorBootHeader where
  headerVersion := 3
  headerSize := if h.headerSize = 0 then 2112 else h.headerSize
  pageSize := h.pageSize
  kernelAddr := h.kernelAddr
  ramdiskAddr := h.ramdiskAddr
  vendorRamdiskSize := h.vendorRamdiskSize
  tagsAddr := h.tagsAddr
  dtbSize := h.dtbSize
  dtbAddr := h.dtbAddr
  ramdiskTableSize := 0
  ramdiskTableEntryNum := 0
  ramdiskTableEntrySize := 0
  bootconfigSize := 0

def VendorBootImgHdrV4.parsed (h : VendorBootImgHdrV4) : VendorBootHeader :=
  { h.toVendorBootImgHdrV3.parsed with
    headerVersion := 4
    headerSize := if h.headerSize = 0 then 2128 else h.headerSize
    ramdiskTableSize := h.vendorRamdiskTableSize
    ramdiskTableEntryNum := h.vendorRamdiskTableEntryNum
    ramdiskTableEntrySize := h.vendorRamdiskTableEntrySize
    bootconfigSize := h.bootconfigSize }

def VendorBootImgHdr.parsed : VendorBootImgHdr → VendorBootHeader
  | v3 h => h.parsed
  | v4 h => h.parsed

/-! ### Lengths -/

@[simp] theorem length_bootMagic : bootMagic.length = 8 := rfl

@[simp] theorem length_vendorBootMagic : vendorBootMagic.length = 8 := rfl

@[simp] theorem BootImgHdrV0.length_fields (version : UInt32) (h : BootImgHdrV0) :
    (h.fields version).flatten.length = headerV0Size := by
  simp [fields, headerV0Size]

@[simp] theorem BootImgHdrV1.length_fields (version : UInt32) (h : BootImgHdrV1) :
    (h.fields version).flatten.length = headerV1Size := by
  rw [fields, List.flatten_append, List.length_append, BootImgHdrV0.length_fields]
  simp [headerV0Size, headerV1Size]

@[simp] theorem BootImgHdrV2.length_fields (version : UInt32) (h : BootImgHdrV2) :
    (h.fields version).flatten.length = headerV2Size := by
  rw [fields, List.flatten_append, List.length_append, BootImgHdrV1.length_fields]
  simp [headerV1Size, headerV2Size]

@[simp] theorem BootImgHdrV3.length_fields (version : UInt32) (h : BootImgHdrV3) :
    (h.fields version).flatten.length = headerV3Size := by
  simp [fields, headerV3Size]

@[simp] theorem BootImgHdrV4.length_fields (version : UInt32) (h : BootImgHdrV4) :
    (h.fields version).flatten.length = headerV4Size := by
  rw [fields, List.flatten_append, List.length_append, BootImgHdrV3.length_fields]
  simp [headerV3Size, headerV4Size]

@[simp] theorem VendorBootImgHdrV3.length_fields (version : UInt32) (h : VendorBootImgHdrV3) :
    (h.fields version).flatten.length = vendorHeaderV3Size := by
  simp [fields, vendorHeaderV3Size]

@[simp] theorem VendorBootImgHdrV4.length_fields (version : UInt32) (h : VendorBootImgHdrV4) :
    (h.fields version).flatten.length = vendorHeaderV4Size := by
  rw [fields, List.flatten_append, List.length_append, VendorBootImgHdrV3.length_fields]
  simp [vendorHeaderV3Size, vendorHeaderV4Size]

end ImgTools
