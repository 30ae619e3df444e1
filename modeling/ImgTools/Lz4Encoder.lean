import ImgTools.Slice
import ImgTools.Word
import ImgTools.Lz4Format
import Mathlib.Logic.Function.Basic

/-!
# The LZ4 block compressor

`lz4_compress_block` of `imageforge_core.rs` with the functions it calls. A Rust
slice holds at most `isize::MAX` bytes, so no sum of positions leaves `usize`
and positions are natural numbers here; the positions stored in the two hash
tables are truncated to 32 bits, as the source's `as u32` does. A subtraction
that no guard of the source covers is checked.

The token, the length bytes and the literals of a sequence are written by the
same statements for a match and for the end of the input; they are
`writeLiterals` here.
-/

namespace ImgTools.Lz4

open Exec

def lz4MinMatch : Nat := 4

def lz4LastLiterals : Nat := 5

def lz4MfLimit : Nat := 12

def lz4MaxOffset : Nat := 65535

def lz4HcAttempts : Nat := 128

def lz4HcLazyLength : Nat := 128

abbrev Slot := UInt16

/-- The two tables of the matcher: the last position of a hash, and the position
    before it for every position modulo `2 ^ 16`. -/
structure Tables where
  head : Slot → UInt32
  chain : Slot → UInt32

def noPosition : UInt32 := 0xffffffff

def Tables.fresh : Tables := ⟨fun _ => noPosition, fun _ => noPosition⟩

/-- `chain[position & 0xffff] = head[hash]; head[hash] = position as u32`. -/
def Tables.record (tables : Tables) (hash : Slot) (position : Nat) : Tables where
  head := Function.update tables.head hash (UInt32.ofNat position)
  chain := Function.update tables.chain (UInt16.ofNat position) (tables.head hash)

def lz4HashLog : UInt32 := 16

def lz4Hash4 (value : UInt32) : Slot := ((value * 2654435761) >>> (32 - lz4HashLog)).toUInt16

def readU32Le (data : List UInt8) (i : Nat) : Outcome UInt32 := do
  let b0 ← index data i
  let b1 ← index data (i + 1)
  let b2 ← index data (i + 2)
  let b3 ← index data (i + 3)
  return UInt32.ofNat (LittleEndian.value [b0, b1, b2, b3])

def lz4Insert (input : List UInt8) (position : Nat) (tables : Tables) : Outcome Tables := do
  let hash := lz4Hash4 (← readU32Le input position)
  return tables.record hash position

/-! ### Finding a match -/

structure Search where
  candidate : Nat
  bestStart : Nat
  bestLength : Nat
  attempts : Nat

/-- One turn of the loop that extends a match forwards; the state is its length. -/
def extendTurn (input : List UInt8) (i matchLimit candidate length : Nat) :
    Outcome (Turn Nat Nat) := do
  if i + length < matchLimit then
    let a ← index input (candidate + length)
    let b ← index input (i + length)
    if a = b then
      return .next (length + 1)
  return .exit length

def worthIt (input : List UInt8) (i matchLimit : Nat) (s : Search) : Outcome Bool := do
  if s.bestLength < lz4MinMatch then
    return true
  if i + s.bestLength < matchLimit ∧ s.candidate + s.bestLength < input.length then
    let a ← index input (s.candidate + s.bestLength)
    let b ← index input (i + s.bestLength)
    return a == b
  return false

def tryCandidate (input : List UInt8) (i matchLimit : Nat) (probe : UInt32) (s : Search) :
    Outcome (Nat × Nat) := do
  if ← worthIt input i matchLimit s then
    if (← readU32Le input s.candidate) = probe then
      let length ← loop (extendTurn input i matchLimit s.candidate) (matchLimit + 1) lz4MinMatch
      if s.bestLength < length then
        return (s.candidate, length)
  return (s.bestStart, s.bestLength)

def findTurn (input : List UInt8) (i matchLimit : Nat) (chain : Slot → UInt32) (probe : UInt32)
    (s : Search) : Outcome (Turn Search (Nat × Nat)) := do
  if s.candidate = noPosition.toNat ∨ lz4HcAttempts ≤ s.attempts then
    return .exit (s.bestStart, s.bestLength)
  if i ≤ s.candidate ∨ lz4MaxOffset < i - s.candidate then
    return .exit (s.bestStart, s.bestLength)
  let (bestStart, bestLength) ← tryCandidate input i matchLimit probe s
  return .next
    { candidate := (chain (UInt16.ofNat s.candidate)).toNat
      bestStart := bestStart
      bestLength := bestLength
      attempts := s.attempts + 1 }

def lz4FindMatch (input : List UInt8) (i matchLimit candidate : Nat) (chain : Slot → UInt32) :
    Outcome (Option (Nat × Nat)) := do
  let probe ← readU32Le input i
  let (bestStart, bestLength) ←
    loop (findTurn input i matchLimit chain probe) (lz4HcAttempts + 1) ⟨candidate, 0, 0, 0⟩
  if lz4MinMatch ≤ bestLength then
    return some (bestStart, bestLength)
  return none

/-! ### Writing a sequence -/

/-- The position after what has been written, or `None`, with the buffer. -/
abbrev Encoded := Option Nat × List UInt8

def writeLengthTurn (s : Nat × Nat × List UInt8) :
    Outcome (Turn (Nat × Nat × List UInt8) Encoded) := do
  let (pos, length, output) := s
  if output.length ≤ pos then
    return .exit (none, output)
  if 255 ≤ length then
    let output ← store output pos 255
    return .next (pos + 1, length - 255, output)
  let output ← store output pos (UInt8.ofNat length)
  return .exit (some (pos + 1), output)

def writeLength (output : List UInt8) (pos length : Nat) : Outcome Encoded :=
  loop writeLengthTurn (length + 1) (pos, length, output)

def tokenNibble (length : Nat) : UInt8 := UInt8.ofNat (if 15 ≤ length then 15 else length)

def writeExtension (output : List UInt8) (pos length : Nat) : Outcome Encoded :=
  if 15 ≤ length then writeLength output pos (length - 15) else return (some pos, output)

/-- The token, the length bytes and the literals of a sequence. -/
def writeLiterals (input : List UInt8) (anchor literalLen : Nat) (low : UInt8) (pos : Nat)
    (output : List UInt8) : Outcome Encoded := do
  if output.length ≤ pos then
    return (none, output)
  let output ← store output pos (tokenNibble literalLen <<< 4 ||| low)
  match ← writeExtension output (pos + 1) literalLen with
  | (none, output) => return (none, output)
  | (some pos, output) =>
    if output.length < pos + literalLen then
      return (none, output)
    let literals ← slice input anchor (anchor + literalLen)
    let output ← copyFromSlice output pos (pos + literalLen) literals
    return (some (pos + literalLen), output)

def writeMatch (offset : UInt16) (matchCode pos : Nat) (output : List UInt8) :
    Outcome Encoded := do
  if output.length < pos + 2 then
    return (none, output)
  let output ← store output pos (offset &&& 0xff).toUInt8
  let output ← store output (pos + 1) (offset >>> 8).toUInt8
  writeExtension output (pos + 2) matchCode

/-! ### The main loop -/

structure Encoder where
  tables : Tables
  pos : Nat
  anchor : Nat
  i : Nat
  output : List UInt8

/-- A longer match one byte later defers this one. -/
def deferMatch (input : List UInt8) (i matchLimit : Nat) (found : Option (Nat × Nat))
    (tables : Tables) : Outcome (Bool × Tables) := do
  match found with
  | none => return (false, tables)
  | some (_, length) =>
    if length < lz4HcLazyLength ∧ i + 1 + lz4MfLimit ≤ input.length then
      let hash := lz4Hash4 (← readU32Le input (i + 1))
      let previous := tables.head hash
      let tables := tables.record hash (i + 1)
      match ← lz4FindMatch input (i + 1) matchLimit previous.toNat tables.chain with
      | some (_, nextLength) => return (decide (length < nextLength), tables)
      | none => return (false, tables)
    else return (false, tables)

/-- One turn of the loop that extends a match backwards; the state is
    `(candidate, match_start, length)`. -/
def extendBackTurn (input : List UInt8) (anchor : Nat) (s : Nat × Nat × Nat) :
    Outcome (Turn (Nat × Nat × Nat) (Nat × Nat × Nat)) := do
  let (candidate, matchStart, length) := s
  if anchor < matchStart ∧ 0 < candidate then
    let a ← index input (candidate - 1)
    let b ← index input (matchStart - 1)
    if a = b then
      return .next (candidate - 1, matchStart - 1, length + 1)
  return .exit (candidate, matchStart, length)

/-- `while inside < match_end { lz4_insert(..); inside += 1 }`, for `count` turns. -/
def insertInside (input : List UInt8) : Nat → Nat → Tables → Outcome Tables
  | 0, _, tables => return tables
  | count + 1, inside, tables => do
    let tables ← lz4Insert input inside tables
    insertInside input count (inside + 1) tables

def emitMatch (input : List UInt8) (s : Encoder) (tables : Tables) (candidate matchLen : Nat) :
    Outcome (Turn Encoder Encoded) := do
  let (candidate, matchStart, length) ←
    loop (extendBackTurn input s.anchor) (candidate + 1) (candidate, s.i, matchLen)
  let literalLen ← Arith.unbounded.sub matchStart s.anchor
  let matchCode ← Arith.unbounded.sub length lz4MinMatch
  let offset ← Arith.unbounded.sub matchStart candidate
  match ← writeLiterals input s.anchor literalLen (tokenNibble matchCode) s.pos s.output with
  | (none, output) => return .exit (none, output)
  | (some pos, output) =>
    match ← writeMatch (UInt16.ofNat offset) matchCode pos output with
    | (none, output) => return .exit (none, output)
    | (some pos, output) =>
      let matchEnd := matchStart + length
      let tables ← insertInside input (matchEnd - (s.i + 1)) (s.i + 1) tables
      return .next ⟨tables, pos, matchEnd, matchEnd, output⟩

def writeClosing (input : List UInt8) (s : Encoder) : Outcome Encoded := do
  let literalLen ← Arith.unbounded.sub input.length s.anchor
  writeLiterals input s.anchor literalLen 0 s.pos s.output

/-- One turn of the main loop; it leaves with the closing literals written. -/
def compressTurn (input : List UInt8) (s : Encoder) : Outcome (Turn Encoder Encoded) := do
  if input.length < s.i + lz4MfLimit then
    return .exit (← writeClosing input s)
  let matchLimit := input.length - lz4LastLiterals
  let hash := lz4Hash4 (← readU32Le input s.i)
  let previous := s.tables.head hash
  let tables := s.tables.record hash s.i
  let found ← lz4FindMatch input s.i matchLimit previous.toNat tables.chain
  let (deferred, tables) ← deferMatch input s.i matchLimit found tables
  match deferred, found with
  | false, some (candidate, matchLen) => emitMatch input s tables candidate matchLen
  | _, _ => return .next { s with tables := tables, i := s.i + 1 }

def lz4CompressBlock (input output : List UInt8) : Outcome Encoded :=
  if input.length = 0 then return (some 0, output)
  else loop (compressTurn input) (input.length + 1) ⟨Tables.fresh, 0, 0, 0, output⟩

def imageforgeLz4CompressBlock (src dst : List UInt8) : Outcome (Int × List UInt8) := do
  match ← lz4CompressBlock src dst with
  | (some written, dst) => return ((written : Int), dst)
  | (none, dst) => return (-1, dst)

end ImgTools.Lz4
