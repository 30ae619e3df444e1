import ImgTools.BootHeader
import ImgTools.FdSource
import ImgTools.Related

/-!
# Inspecting an image

`detect` and `header_details` of `lib.rs`, and the entries `detectFormat`,
`inspectHeader` and `inspectFile` over them. What the virtual machine makes of
a conversion is given to an entry: the bytes of the array, if they could be
taken over, and the constructor of strings, which may fail.
-/

namespace ImgTools

open Exec

/-! ### Format identifiers -/

def UNKNOWN : Int32 := 0

def BOOT : Int32 := 1

def INIT_BOOT : Int32 := 13

def VENDOR_BOOT : Int32 := 2

def SPARSE : Int32 := 3

def OTA_PAYLOAD : Int32 := 4

def ZIP : Int32 := 5

def EXT4 : Int32 := 6

def EROFS : Int32 := 7

def F2FS : Int32 := 8

def DTB : Int32 := 9

def ELF : Int32 := 10

def SUPER : Int32 := 11

def CPIO : Int32 := 12

/-! ### Detection -/

def magicAt (B : Build) (bytes : List UInt8) (offset : Nat) (magic : List UInt8) :
    Outcome Bool := do
  if saturatingAdd B.usizeBits offset magic.length ≤ bytes.length then
    let stop ← (B.arith B.usizeBits).add offset magic.length
    let field ← slice bytes offset stop
    return field == magic
  else return false

/-- `a || b`, where `b` is evaluated only if `a` is false. -/
def orElse (a b : Outcome Bool) : Outcome Bool := do
  if ← a then return true else b

/-- A boot image with a ramdisk and no kernel is an `init_boot` image. -/
def detectBoot (bytes : List UInt8) : Outcome Int32 := do
  match ← (parseBootHeader bytes).run with
  | .ok header =>
    if header.headerVersion ≥ 4 ∧ header.kernelSize = 0 ∧ header.ramdiskSize > 0 then
      return INIT_BOOT
    else return BOOT
  | .error _ => return BOOT

def detect (B : Build) (bytes : List UInt8) : Outcome Int32 := do
  if ← magicAt B bytes 0 bootMagic then detectBoot bytes
  else if ← magicAt B bytes 0 vendorBootMagic then return VENDOR_BOOT
  else if ← magicAt B bytes 0 [0x3a, 0xff, 0x26, 0xed] then return SPARSE
  -- `CrAU`
  else if ← magicAt B bytes 0 [0x43, 0x72, 0x41, 0x55] then return OTA_PAYLOAD
  else if ← orElse (magicAt B bytes 0 [0x50, 0x4b, 0x03, 0x04])
      (magicAt B bytes 0 [0x50, 0x4b, 0x05, 0x06]) then return ZIP
  -- `070701`, `070702` and `070707`
  else if ← orElse (magicAt B bytes 0 [0x30, 0x37, 0x30, 0x37, 0x30, 0x31])
      (orElse (magicAt B bytes 0 [0x30, 0x37, 0x30, 0x37, 0x30, 0x32])
        (magicAt B bytes 0 [0x30, 0x37, 0x30, 0x37, 0x30, 0x37])) then return CPIO
  else if ← magicAt B bytes 0x438 [0x53, 0xef] then return EXT4
  else if ← magicAt B bytes 1024 [0xe2, 0xe1, 0xf5, 0xe0] then return EROFS
  else if ← magicAt B bytes 1024 [0x10, 0x20, 0xf5, 0xf2] then return F2FS
  else if ← magicAt B bytes 0 [0xd0, 0x0d, 0xfe, 0xed] then return DTB
  -- `\x7fELF`
  else if ← magicAt B bytes 0 [0x7f, 0x45, 0x4c, 0x46] then return ELF
  else if ← orElse (magicAt B bytes 0 [0x67, 0x44, 0x6c, 0x61])
      (magicAt B bytes 4096 [0x67, 0x44, 0x6c, 0x61]) then return SUPER
  else return UNKNOWN

/-! ### Header details -/

def BootHeader.details (header : BootHeader) : String :=
  s!"boot v{header.headerVersion} • header {header.headerSize} B • kernel {header.kernelSize} B" ++
    s!" • ramdisk {header.ramdiskSize} B • page {header.pageSize} B"

def VendorBootHeader.details (header : VendorBootHeader) : String :=
  s!"vendor_boot v{header.headerVersion} • header {header.headerSize} B" ++
    s!" • vendor ramdisk {header.vendorRamdiskSize} B • dtb {header.dtbSize} B" ++
    s!" • page {header.pageSize} B"

def headerDetails (bytes : List UInt8) : Outcome String := do
  match ← (parseBootHeader bytes).run with
  | .ok header => return header.details
  | .error _ =>
    match ← (parseVendorBootHeader bytes).run with
    | .ok header => return header.details
    | .error _ => return "Header details unavailable for this format"

/-! ### The entries of the native engine -/

section Entries

variable {J : Type} (newString : String → Option J)

def detectFormat (B : Build) : Option (List UInt8) → Outcome Int32
  | some bytes => detect B bytes
  | none => return UNKNOWN

def inspectHeader : Option (List UInt8) → Outcome (Option J)
  | some bytes => do return newString (← headerDetails bytes)
  | none => return none

def report (B : Build) (bytes : List UInt8) : Outcome (Option J) := do
  let code ← detect B bytes
  let detail ← headerDetails bytes
  return newString s!"{code}|{detail}"

def inspectFile (B : Build) (fd : Int32) (size : Int64) (device : Device) :
    Outcome (Option J) := do
  if size < 0 then return none
  else
    match FdSource.new B fd size.toUInt64 device with
    | .error _ => return none
    | .ok source =>
      match ← (ByteSource.read (S := FdSource B) 0 65536).eval source with
      | .error _ => return none
      | .ok bytes => report newString B bytes

end Entries

end ImgTools
