import ImgTools.Slice
import ImgTools.Word
import ImgTools.Lz4Format

/-!
# The LZ4 block decoder

`lz4_decompress_block_with_prefix` of `imageforge_core.rs`, over an arbitrary
machine arithmetic. Every sum the source evaluates on `usize` is an
`Arith.add`, so one definition is the release build of a 32-bit or a 64-bit
ABI, the debug build, and the algorithm over unbounded integers. The buffer is
threaded through every exit, including the ones that return `None`: the caller
of the source sees what was written before the failure.

The main loop reads one sequence a turn. The body of the source's loop is cut
where it reads a length, so that each part below starts from lengths already
read; the run of length bytes, inlined twice in the source, is `readLength`.
-/

namespace ImgTools.Lz4

open Exec

/-- What the decoder returns, with the buffer it leaves. -/
abbrev Decoded := Option Nat × List UInt8

structure Cursor where
  sp : Nat
  dp : Nat
  output : List UInt8
deriving DecidableEq, Repr

/-- One turn of the `loop` that adds up length bytes; the state is `(sp, length)`. -/
def lengthTurn (A : Arith) (input : List UInt8) (state : Nat × Nat) :
    Outcome (Turn (Nat × Nat) (Option (Nat × Nat))) := do
  if input.length ≤ state.1 then
    return .exit none
  let next ← index input state.1
  let sp ← A.add state.1 1
  let length ← A.add state.2 next.toNat
  if next ≠ 255 then
    return .exit (some (sp, length))
  return .next (sp, length)

/-- A length whose nibble is `start`: the position after it and its value. -/
def readLength (A : Arith) (input : List UInt8) (start sp : Nat) :
    Outcome (Option (Nat × Nat)) :=
  if start = 15 then loop (lengthTurn A input) (input.length + 1) (sp, start)
  else return some (sp, start)

/-- `for i in 0..match_len { output[dp + i] = output[src_pos + i] }`, from `i` on. -/
def copyMatch (A : Arith) (dp srcPos : Nat) :
    Nat → Nat → List UInt8 → Outcome (List UInt8)
  | 0, _, output => return output
  | count + 1, i, output => do
    let source ← A.add srcPos i
    let byte ← index output source
    let target ← A.add dp i
    let output ← store output target byte
    copyMatch A dp srcPos count (i + 1) output

def decodeMatch (A : Arith) (offset sp matchLen dp : Nat) (output : List UInt8) :
    Outcome (Turn Cursor Decoded) := do
  let matchLen ← A.add matchLen 4
  let matchEnd ← A.add dp matchLen
  if output.length < matchEnd then
    return .exit (none, output)
  let srcPos ← A.sub dp offset
  let output ← copyMatch A dp srcPos matchLen 0 output
  return .next ⟨sp, matchEnd, output⟩

def decodeReference (A : Arith) (input : List UInt8) (token : UInt8) (sp dp : Nat)
    (output : List UInt8) : Outcome (Turn Cursor Decoded) := do
  let offsetEnd ← A.add sp 2
  if input.length < offsetEnd then
    return .exit (none, output)
  let first ← index input sp
  let next ← A.add sp 1
  let second ← index input next
  let offset := first.toNat ||| second.toNat <<< 8
  if offset = 0 ∨ dp < offset then
    return .exit (none, output)
  match ← readLength A input (token &&& 0x0f).toNat offsetEnd with
  | none => return .exit (none, output)
  | some (sp, matchLen) => decodeMatch A offset sp matchLen dp output

def decodeLiterals (A : Arith) (input : List UInt8) (token : UInt8) (sp literalLen dp : Nat)
    (output : List UInt8) : Outcome (Turn Cursor Decoded) := do
  let literalEnd ← A.add sp literalLen
  if input.length < literalEnd then
    return .exit (none, output)
  let outputEnd ← A.add dp literalLen
  if output.length < outputEnd then
    return .exit (none, output)
  let literals ← slice input sp literalEnd
  let output ← copyFromSlice output dp outputEnd literals
  if input.length ≤ literalEnd then
    return .exit (some outputEnd, output)
  decodeReference A input token literalEnd outputEnd output

/-- One turn of the main loop. It leaves with the final `dp`, or with `None`. -/
def decodeTurn (A : Arith) (input : List UInt8) (c : Cursor) :
    Outcome (Turn Cursor Decoded) := do
  if input.length ≤ c.sp then
    return .exit (some c.dp, c.output)
  let token ← index input c.sp
  let sp ← A.add c.sp 1
  match ← readLength A input (token >>> 4).toNat sp with
  | none => return .exit (none, c.output)
  | some (sp, literalLen) => decodeLiterals A input token sp literalLen c.dp c.output

def lz4DecompressBlockWithPrefix (A : Arith) (input output : List UInt8) (prefixLen : Nat) :
    Outcome Decoded := do
  let (result, output) ← loop (decodeTurn A input) (input.length + 1) ⟨0, prefixLen, output⟩
  match result with
  | none => return (none, output)
  | some dp =>
    let written ← A.sub dp prefixLen
    return (some written, output)

def lz4DecompressBlock (A : Arith) (input output : List UInt8) : Outcome Decoded :=
  lz4DecompressBlockWithPrefix A input output 0

/-- The C entry point: the bytes written, or `-1`. -/
def imageforgeLz4DecompressBlock (A : Arith) (src dst : List UInt8) (prefixLen : Nat) :
    Outcome (Int × List UInt8) := do
  if dst.length < prefixLen then
    return (-1, dst)
  match ← lz4DecompressBlockWithPrefix A src dst prefixLen with
  | (some written, dst) => return ((written : Int), dst)
  | (none, dst) => return (-1, dst)

/-- A literal run and an overlapping back-reference, decoded into a larger buffer. -/
example : lz4DecompressBlock (.wrapping 64) [0x22, 1, 2, 2, 0, 0x10, 9] (List.replicate 10 7) =
    .done (some 9, [1, 2, 1, 2, 1, 2, 1, 2, 9, 7]) := by decide

end ImgTools.Lz4
