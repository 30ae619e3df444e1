import ImgTools.ByteSource
import ImgTools.LittleEndian
import ImgTools.Utf8

/-!
# The ZIP central-directory reader

`zip.rs`: the end record is found by a backward scan of a bounded tail of the
source, the central directory it denotes is read whole, and its records are
walked one by one, each with one read of the local header it refers to.

A position that the source computes with an unchecked addition is a sum of
natural numbers where a length check has bounded it, and goes through the
arithmetic of the build where it is derived from the cursor of the walk.
-/

namespace ImgTools.Zip

open Exec

def LOCAL_HEADER : UInt32 := 0x04034b50
def CENTRAL_HEADER : UInt32 := 0x02014b50
def EOCD : UInt32 := 0x06054b50
def ZIP64_EOCD : UInt32 := 0x06064b50
def ZIP64_LOCATOR : UInt32 := 0x07064b50
def ZIP64_EXTRA : UInt16 := 0x0001
def ZIP64_SENTINEL : UInt32 := 0xffffffff
def ZIP64_SENTINEL_16 : UInt16 := 0xffff
def END_RECORD_WINDOW : Nat := 0xffff + 22 + 76 + 0xffff

inductive ZipError where
  | tooShort
  | missingEocd
  | invalidEocd
  | invalidZip64
  | truncated
  | damaged (message : String)
  | unsupported (message : String)
  | source (error : ByteSourceError)
deriving DecidableEq, Repr

structure ZipEntry where
  name : String
  method : UInt16
  crc32 : UInt32
  compressedSize : UInt64
  uncompressedSize : UInt64
  dataOffset : UInt64
deriving DecidableEq, Repr

structure EndRecord where
  entryCount : UInt64
  centralSize : UInt64
  centralOffset : UInt64
deriving DecidableEq, Repr

/-! ### Fields -/

def u16le (b : List UInt8) (o : Nat) : Except ZipError UInt16 :=
  match LittleEndian.read? b o 2 with
  | some n => .ok (UInt16.ofNat n)
  | none => .error .invalidEocd

def u32le (b : List UInt8) (o : Nat) : Except ZipError UInt32 :=
  match LittleEndian.read? b o 4 with
  | some n => .ok (UInt32.ofNat n)
  | none => .error .invalidEocd

def u64le (b : List UInt8) (o : Nat) : Except ZipError UInt64 :=
  match LittleEndian.read? b o 8 with
  | some n => .ok (UInt64.ofNat n)
  | none => .error .invalidZip64

/-- `u32le(b, o).ok() == Some(signature)`. -/
def hasSignature (b : List UInt8) (o : Nat) (signature : UInt32) : Bool :=
  (u32le b o).toOption == some signature

def add (a b : UInt64) : Except ZipError UInt64 :=
  match checkedAdd 64 a.toNat b.toNat with
  | some n => .ok (UInt64.ofNat n)
  | none => .error (.damaged "ZIP offset overflow")

/-! ### The end record -/

section Source

variable {S : Type} [ByteSource S]

def readSource (offset : UInt64) (length : Nat) : Reading S ZipError (List UInt8) :=
  .convert .source (ByteSource.read offset length)

/-- The scan `for i in (0..=last).rev()`: the last position that has the end-record signature. -/
def scanEocd (tail : List UInt8) : (last : Nat) → Option Nat
  | 0 => if hasSignature tail 0 EOCD then some 0 else none
  | i + 1 => if hasSignature tail (i + 1) EOCD then some (i + 1) else scanEocd tail i

def findEocd (tail : List UInt8) : Option Nat :=
  if 22 ≤ tail.length then scanEocd tail (tail.length - 22) else none

def plainEnd (tail : List UInt8) (eocd : Nat) : Except ZipError EndRecord := do
  let entryCount ← u16le tail (eocd + 10)
  let centralSize ← u32le tail (eocd + 12)
  let centralOffset ← u32le tail (eocd + 16)
  return ⟨entryCount.toUInt64, centralSize.toUInt64, centralOffset.toUInt64⟩

def zip64Fields (record64 : List UInt8) : Except ZipError EndRecord := do
  if record64.length < 56 then .error .invalidZip64
  else
    let signature ← u32le record64 0
    if signature ≠ ZIP64_EOCD then .error .invalidZip64
    else
      let entryCount ← u64le record64 32
      let centralSize ← u64le record64 40
      let centralOffset ← u64le record64 48
      return ⟨entryCount, centralSize, centralOffset⟩

def zip64End (tail : List UInt8) (locator : Nat) : Reading S ZipError EndRecord := do
  let recordOffset ← u64le tail (locator + 8)
  let record64 ← readSource recordOffset 56
  zip64Fields record64

/-- A record that is said to continue in a 64-bit record that is not there. -/
def isSentinel (record : EndRecord) : Bool :=
  record.entryCount == ZIP64_SENTINEL_16.toUInt64 ||
    record.centralOffset == ZIP64_SENTINEL.toUInt64

def endAt (tail : List UInt8) (eocd : Nat) : Reading S ZipError EndRecord := do
  let record ← plainEnd tail eocd
  match checkedSub eocd 20 with
  | some locator =>
    if hasSignature tail locator ZIP64_LOCATOR then zip64End tail locator
    else if isSentinel record then .fail .invalidZip64
    else return record
  | none => return record

def readEnd : Reading S ZipError EndRecord := do
  let size ← .ask ByteSource.size
  if size.toNat < 22 then .fail .tooShort
  else
    let window := min END_RECORD_WINDOW size.toNat
    let tail ← readSource (UInt64.ofNat (size.toNat - window)) window
    match findEocd tail with
    | none => .fail .missingEocd
    | some eocd => endAt tail eocd

end Source

/-! ### The ZIP64 extra field -/

structure Values where
  uncompressed : UInt64
  compressed : UInt64
  localOffset : UInt64
deriving DecidableEq, Repr

/-- `if value == ZIP64_SENTINEL { value = u64le(extra, f)?; f += 8; }`, with the
    value and the position after it. -/
def takeWide (extra : List UInt8) (value : UInt64) (f : Nat) : Except ZipError (UInt64 × Nat) :=
  if value = ZIP64_SENTINEL.toUInt64 then do return (← u64le extra f, f + 8)
  else return (value, f)

def takeValues (extra : List UInt8) (f : Nat) (values : Values) : Except ZipError Values := do
  let (uncompressed, f) ← takeWide extra values.uncompressed f
  let (compressed, f) ← takeWide extra values.compressed f
  let (localOffset, _) ← takeWide extra values.localOffset f
  return ⟨uncompressed, compressed, localOffset⟩

def fieldValues (extra : List UInt8) (id : UInt16) (f : Nat) (values : Values) :
    Except ZipError Values :=
  if id = ZIP64_EXTRA then takeValues extra f values else .ok values

/-- One turn of the loop: the field at `p`. -/
def extraField (extra : List UInt8) (p : Nat) (values : Values) :
    Except ZipError (Nat × Values) := do
  let id ← (u16le extra p).mapError fun _ => .invalidZip64
  let len ← (u16le extra (p + 2)).mapError fun _ => .invalidZip64
  let stop := p + 4 + len.toNat
  if extra.length < stop then .error .invalidZip64
  else
    let values ← fieldValues extra id (p + 4) values
    return (stop, values)

def zip64Turn (extra : List UInt8) (state : Nat × Values) :
    Outcome (Turn (Nat × Values) (Except ZipError Values)) :=
  if state.1 + 4 ≤ extra.length then
    match extraField extra state.1 state.2 with
    | .ok state' => return .next state'
    | .error e => return .exit (.error e)
  else return .exit (.ok state.2)

/-- Every field is at least four bytes long, so the loop ends within the budget. -/
def zip64Values (extra : List UInt8) (values : Values) : Fallible ZipError Values :=
  loop (zip64Turn extra) (extra.length + 1) (0, values)

/-! ### The central directory -/

section Source

variable {S : Type} [ByteSource S] (B : Build)

def entrySize : Nat :=
  match B.target with
  | .bits32 => 48
  | .bits64 => 56

/-- `Vec::<ZipEntry>::with_capacity(capacity)` panics when the vector would be
    larger than an allocation may be. -/
def withCapacity (capacity : Nat) : Outcome Unit :=
  if capacity * entrySize B ≤ B.isizeMax then return () else .panic .capacityOverflow

def requestedCapacity (record : EndRecord) : Nat := (B.usizeFrom record.entryCount).getD 0

def readDirectory : Reading S ZipError (EndRecord × List UInt8) := do
  let record ← readEnd
  match B.usizeFrom record.centralSize with
  | none => .fail (.unsupported "central directory is too large")
  | some length =>
    let central ← readSource record.centralOffset length
    if UInt64.ofNat central.length ≠ record.centralSize then .fail .truncated
    else return (record, central)

def u16At (central : List UInt8) (cursor k : Nat) : Fallible ZipError UInt16 := do
  u16le central (← (B.arith B.usizeBits).add cursor k)

def u32At (central : List UInt8) (cursor k : Nat) : Fallible ZipError UInt32 := do
  u32le central (← (B.arith B.usizeBits).add cursor k)

/-- `a.checked_add(b).ok_or(ZipError::Damaged(message))?`. -/
def advance (a b : Nat) (message : String) : Except ZipError Nat :=
  match checkedAdd B.usizeBits a b with
  | some n => .ok n
  | none => .error (.damaged message)

/-- `cursor.checked_add(46).map_or(true, |e| e > central.len())
    || u32le(&central, cursor).ok() != Some(CENTRAL_HEADER)`. -/
def isDamaged (central : List UInt8) (cursor : Nat) : Bool :=
  (match checkedAdd B.usizeBits cursor 46 with
    | some e => decide (central.length < e)
    | none => true) ||
  !hasSignature central cursor CENTRAL_HEADER

structure CentralFields where
  method : UInt16
  crc32 : UInt32
  compressed : UInt32
  uncompressed : UInt32
  nameLen : UInt16
  extraLen : UInt16
  commentLen : UInt16
  localOffset : UInt32
deriving DecidableEq, Repr

def centralFields (central : List UInt8) (cursor : Nat) : Fallible ZipError CentralFields := do
  let method ← u16At B central cursor 10
  let crc32 ← u32At B central cursor 16
  let compressed ← u32At B central cursor 20
  let uncompressed ← u32At B central cursor 24
  let nameLen ← u16At B central cursor 28
  let extraLen ← u16At B central cursor 30
  let commentLen ← u16At B central cursor 32
  let localOffset ← u32At B central cursor 42
  return ⟨method, crc32, compressed, uncompressed, nameLen, extraLen, commentLen, localOffset⟩

/-- The ends of the variable parts of a central record. -/
structure Spans where
  nameStart : Nat
  nameEnd : Nat
  extraEnd : Nat
  next : Nat
deriving DecidableEq, Repr

def spans (fields : CentralFields) (cursor : Nat) : Fallible ZipError Spans := do
  let nameStart ← (B.arith B.usizeBits).add cursor 46
  let nameEnd ← advance B nameStart fields.nameLen.toNat "name overflow"
  let extraEnd ← advance B nameEnd fields.extraLen.toNat "extra overflow"
  let next ← advance B extraEnd fields.commentLen.toNat "comment overflow"
  return ⟨nameStart, nameEnd, extraEnd, next⟩

/-- What a central record says of its entry, and where the next one starts. -/
structure CentralRecord where
  name : String
  method : UInt16
  crc32 : UInt32
  values : Values
  next : Nat
deriving DecidableEq, Repr

def centralRecord (central : List UInt8) (index cursor : Nat) :
    Fallible ZipError CentralRecord := do
  Fallible.failIf (isDamaged B central cursor = true)
    (.damaged s!"central directory entry {index + 1} is damaged")
  let fields ← centralFields B central cursor
  let ends ← spans B fields cursor
  Fallible.failIf (central.length < ends.next) .truncated
  let name ← slice central ends.nameStart ends.nameEnd
  let extra ← slice central ends.nameEnd ends.extraEnd
  let values ← zip64Values extra ⟨fields.uncompressed.toUInt64, fields.compressed.toUInt64,
    fields.localOffset.toUInt64⟩
  return ⟨Utf8.fromUtf8Lossy name, fields.method, fields.crc32, values, ends.next⟩

def dataOffset (name : String) (localOffset : UInt64) : Reading S ZipError UInt64 := do
  let header ← readSource localOffset 30
  if header.length < 30 ∨ hasSignature header 0 LOCAL_HEADER = false then
    .fail (.damaged s!"local header for {name} is invalid")
  else
    let localNameLen ← u16le header 26
    let localExtraLen ← u16le header 28
    let start ← add localOffset 30
    let lengths ← add localNameLen.toUInt64 localExtraLen.toUInt64
    add start lengths

/-- The loop over the entries: `count` of them are left, from the central record at `cursor` on. -/
def walk (central : List UInt8) : (count index cursor : Nat) →
    Reading S ZipError (List ZipEntry)
  | 0, _, _ => return []
  | count + 1, index, cursor => do
    let record ← centralRecord B central index cursor
    let dataOffset ← dataOffset record.name record.values.localOffset
    let entries ← walk central count (index + 1) record.next
    return ⟨record.name, record.method, record.crc32, record.values.compressed,
      record.values.uncompressed, dataOffset⟩ :: entries

def list : Reading S ZipError (List ZipEntry) := do
  let (record, central) ← readDirectory B
  withCapacity B (requestedCapacity B record)
  walk B central record.entryCount.toNat 0 0

end Source

end ImgTools.Zip
