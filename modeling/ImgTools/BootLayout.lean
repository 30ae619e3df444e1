import ImgTools.BootHeader
import ImgTools.Region

/-!
# Boot image layouts

`boot_sections` and `vendor_sections` of `boot_layout.rs`. Offsets and sizes are
`u64` values. The source checks most of its sums; the ones it does not check are
`Arith.add` and `Arith.sub`, so that one definition is the debug build and the
release build.

Each section of the source has a block of its own that validates it, moves the
cursor and pushes it; `Layout.place` is that block, with the kind, the offset and
the size of the section as parameters.
-/

namespace ImgTools

open Exec Fallible

inductive BootSectionKind where
  | kernel
  | ramdisk
  | second
  | recoveryDtbo
  | dtb
  | vendorRamdisk
  | vendorDtb
  | vendorRamdiskTable
  | bootconfig
  | signature
deriving DecidableEq, Repr

structure BootSection where
  kind : BootSectionKind
  offset : Nat
  size : Nat
deriving DecidableEq, Repr

inductive LayoutError where
  | invalidPageSize (value : UInt32)
  | binary (error : BinaryError)
  | sectionOutOfBounds (kind : BootSectionKind) (offset size sourceSize : Nat)
deriving DecidableEq, Repr

def BootSection.region (s : BootSection) : Region := ⟨s.offset, s.size⟩

def validateSection (s : BootSection) (sourceSize : Nat) : Except LayoutError BootSection :=
  match checkedAdd 64 s.offset s.size with
  | none => .error (.binary .overflow)
  | some finish =>
    if sourceSize < finish then
      .error (.sectionOutOfBounds s.kind s.offset s.size sourceSize)
    else .ok s

def pageSize (value : UInt32) : Except LayoutError Nat :=
  let p := value.toNat
  if p < 512 ∨ ¬ isPowerOfTwo p then .error (.invalidPageSize value) else .ok p

/-- The cursor and the sections, between two blocks. -/
structure Layout where
  cursor : Nat
  sections : List BootSection
deriving DecidableEq, Repr

/-- The block of a section: validate it, align the cursor after it, push it. -/
def Layout.place (A : Arith) (alignment sourceSize : Nat) (kind : BootSectionKind)
    (offset size : Nat) (layout : Layout) : Fallible LayoutError Layout := do
  let s ← ofExcept id (validateSection ⟨kind, offset, size⟩ sourceSize)
  let finish ← A.add offset s.size
  let cursor ← ofExcept .binary (alignUp finish alignment)
  return ⟨cursor, layout.sections ++ [s]⟩

/-- The block of a section at the cursor, left out when its size is zero. -/
def Layout.placeNext (A : Arith) (alignment sourceSize : Nat) (kind : BootSectionKind)
    (size : UInt32) (layout : Layout) : Fallible LayoutError Layout :=
  if 0 < size then layout.place A alignment sourceSize kind layout.cursor size.toNat
  else return layout

/-- A block that only validates its section and pushes it. -/
def Layout.push (sourceSize : Nat) (s : BootSection) (layout : Layout) :
    Fallible LayoutError Layout := do
  let s ← ofExcept id (validateSection s sourceSize)
  return { layout with sections := layout.sections ++ [s] }

/-- The recorded offset of the recovery DTBO, or the cursor where it cannot be right. -/
def recoveryDtboOffset (header : BootHeader) (sourceSize cursor : Nat) : Nat :=
  let recorded := header.recoveryDtboOffset.toNat
  match checkedAdd 64 recorded header.recoveryDtboSize.toNat with
  | some finish => if recorded ≥ cursor ∧ finish ≤ sourceSize then recorded else cursor
  | none => cursor

/-- The cursor, or the last position where the DTB fits. -/
def dtbOffset (header : BootHeader) (sourceSize cursor : Nat) : Nat :=
  let fromEnd := (checkedSub sourceSize header.dtbSize.toNat).getD 0
  if (checkedAdd 64 cursor header.dtbSize.toNat).any (· ≤ sourceSize) then cursor else fromEnd

def placeFront (A : Arith) (header : BootHeader) (page sourceSize : Nat) (layout : Layout) :
    Fallible LayoutError Layout := do
  let layout ← layout.placeNext A page sourceSize .kernel header.kernelSize
  let layout ← layout.placeNext A page sourceSize .ramdisk header.ramdiskSize
  let layout ← layout.placeNext A page sourceSize .second header.secondSize
  if header.headerVersion ≥ 1 ∧ 0 < header.recoveryDtboSize then
    layout.place A page sourceSize .recoveryDtbo
      (recoveryDtboOffset header sourceSize layout.cursor) header.recoveryDtboSize.toNat
  else return layout

def placeDtb (A : Arith) (header : BootHeader) (page sourceSize : Nat) (layout : Layout) :
    Fallible LayoutError Layout :=
  if header.headerVersion ≥ 2 ∧ 0 < header.dtbSize then
    layout.place A page sourceSize .dtb (dtbOffset header sourceSize layout.cursor)
      header.dtbSize.toNat
  else return layout

def placeSignature (sourceSize signatureOffset signatureSize : Nat) (layout : Layout) :
    Fallible LayoutError Layout :=
  if 0 < signatureSize then layout.push sourceSize ⟨.signature, signatureOffset, signatureSize⟩
  else return layout

/-- The signature at the end of the source, and the bootconfig up to it. -/
def placeTrailer (A : Arith) (header : BootHeader) (sourceSize : Nat) (layout : Layout) :
    Fallible LayoutError Layout := do
  let signatureSize := header.signatureSize.toNat
  failIf (sourceSize < signatureSize) (.sectionOutOfBounds .signature 0 signatureSize sourceSize)
  let signatureOffset ← A.sub sourceSize signatureSize
  if layout.cursor < signatureOffset then
    let size ← A.sub signatureOffset layout.cursor
    let layout ← layout.push sourceSize ⟨.bootconfig, layout.cursor, size⟩
    placeSignature sourceSize signatureOffset signatureSize layout
  else
    placeSignature sourceSize signatureOffset signatureSize layout

def bootSections (A : Arith) (header : BootHeader) (sourceSize : UInt64) :
    Fallible LayoutError (List BootSection) := do
  let page ← ofExcept id
    (if header.headerVersion ≥ 3 then .ok 4096 else pageSize header.pageSize)
  let cursor ← ofExcept .binary (alignUp header.headerSize.toNat page)
  let layout ← placeFront A header page sourceSize.toNat ⟨cursor, []⟩
  let layout ← placeDtb A header page sourceSize.toNat layout
  if header.headerVersion ≥ 3 then
    let layout ← placeTrailer A header sourceSize.toNat layout
    return layout.sections
  else return layout.sections

def placeVendor (A : Arith) (page sourceSize : Nat)
    (vendorRamdiskSize dtbSize tableSize bootconfigSize : UInt32) (layout : Layout) :
    Fallible LayoutError Layout := do
  let layout ← layout.placeNext A page sourceSize .vendorRamdisk vendorRamdiskSize
  let layout ← layout.placeNext A page sourceSize .vendorDtb dtbSize
  let layout ← layout.placeNext A 4 sourceSize .vendorRamdiskTable tableSize
  if 0 < bootconfigSize then
    layout.push sourceSize ⟨.bootconfig, layout.cursor, bootconfigSize.toNat⟩
  else return layout

def vendorSections (A : Arith) (headerVersion headerSize pageSizeValue vendorRamdiskSize dtbSize
    tableSize bootconfigSize : UInt32) (sourceSize : UInt64) :
    Fallible LayoutError (List BootSection) := do
  let page ← ofExcept id (pageSize pageSizeValue)
  let minimumHeader :=
    if headerVersion ≥ 4 then vendorHeaderV3Size + 16 else vendorHeaderV3Size
  failIf (headerSize.toNat < minimumHeader)
    (.sectionOutOfBounds .vendorRamdisk headerSize.toNat 0 sourceSize.toNat)
  let cursor ← ofExcept .binary (alignUp headerSize.toNat page)
  let layout ← placeVendor A page sourceSize.toNat vendorRamdiskSize dtbSize tableSize
    bootconfigSize ⟨cursor, []⟩
  return layout.sections

end ImgTools
