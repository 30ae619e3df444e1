import ImgTools.Expanders
import ImgTools.PieceWriter
import ImgTools.Word

/-!
# What xz compresses is expanded again

`imageforge_xz_compress` and its bound, of `imageforge_core.rs`. The encoder is that of
a third party, as the decoder is; its sink is in memory, so that no call of it is
interrupted. `XzCodec` says what a pair of them is for, and the round trip goes through
the two buffers of the caller, whatever their capacities are.
-/

namespace ImgTools

open Exec

/-- An encoder of a third party: made with the capacity of its sink, written to, and
    finished. -/
structure Encoder (ε W : Type) where
  new : Nat → Except ε W
  write : W → List UInt8 → Except ε Nat × W
  finish : W → Except ε (List UInt8)

variable {ε ε' W R : Type}

def imageforgeXzCompressBound (bits srcLen : Nat) : Nat :=
  saturatingAdd bits (saturatingAdd bits srcLen (srcLen / 3)) 512

def imageforgeXzCompress (encoder : Encoder ε W) (budget : Nat) (src dst : List UInt8) :
    Outcome (Int × List UInt8) := do
  match encoder.new (src.length / 3 + 256) with
  | .error _ => return (-1, dst)
  | .ok writer =>
    match ← writeAll encoder.write budget writer src with
    | none => return (-1, dst)
    | some writer =>
      match encoder.finish writer with
      | .error _ => return (-1, dst)
      | .ok compressed =>
        if dst.length < compressed.length then return (-1, dst)
        let dst ← copyFromSlice dst 0 compressed.length compressed
        return (compressed.length, dst)

/-- What the encoder makes of a source: a stream, or nothing when one of its calls fails. -/
inductive Encoder.Encodes (encoder : Encoder ε W) (src : List UInt8) :
    Option (List UInt8) → Prop where
  | notMade {e : ε} (h : encoder.new (src.length / 3 + 256) = .error e) : Encodes encoder src none
  | notWritten {writer : W} (h : encoder.new (src.length / 3 + 256) = .ok writer)
    (hwrite : Takes encoder.write writer src none) : Encodes encoder src none
  | notFinished {writer writer' : W} {e : ε} (h : encoder.new (src.length / 3 + 256) = .ok writer)
    (hwrite : Takes encoder.write writer src (some writer'))
    (hfinish : encoder.finish writer' = .error e) : Encodes encoder src none
  | finished {writer writer' : W} {stream : List UInt8}
    (h : encoder.new (src.length / 3 + 256) = .ok writer)
    (hwrite : Takes encoder.write writer src (some writer'))
    (hfinish : encoder.finish writer' = .ok stream) : Encodes encoder src (some stream)

/-- **The contract of a codec.** A write takes no more than it is given, a stream is not
    longer than the bound, and the decoder delivers what has been written. -/
structure XzCodec (bits : Nat) (ε W ε' R : Type) where
  encoder : Encoder ε W
  decoder : Decoder ε' R
  write_le : ∀ writer data n writer', encoder.write writer data = (.ok n, writer') →
    n ≤ data.length
  bounded : ∀ src stream, encoder.Encodes src (some stream) →
    stream.length ≤ imageforgeXzCompressBound bits src.length
  lossless : ∀ src stream, encoder.Encodes src (some stream) →
    ∃ chunks, Delivers decoder.read (decoder.new stream) chunks true ∧ chunks.flatten = src

/-! ### One call -/

def xzResult (dst : List UInt8) : Option (List UInt8) → Int × List UInt8
  | none => (-1, dst)
  | some stream =>
    if dst.length < stream.length then (-1, dst)
    else (stream.length, stream ++ dst.drop stream.length)

theorem imageforgeXzCompress_eq {encoder : Encoder ε W} {src : List UInt8}
    {result : Option (List UInt8)} (h : encoder.Encodes src result) {budget : Nat}
    (hbudget : src.length < budget) (dst : List UInt8) :
    imageforgeXzCompress encoder budget src dst = .done (xzResult dst result) := by
  rw [imageforgeXzCompress]
  cases h with
  | notMade h => rw [h]; rfl
  | notWritten h hwrite =>
    rw [h]
    dsimp only
    rw [writeAll_eq hwrite hbudget]
    rfl
  | notFinished h hwrite hfinish =>
    rw [h]
    dsimp only
    rw [writeAll_eq hwrite hbudget, Outcome.done_bind]
    dsimp only
    rw [hfinish]
    rfl
  | @finished writer writer' stream h hwrite hfinish =>
    rw [h]
    dsimp only
    rw [writeAll_eq hwrite hbudget, Outcome.done_bind]
    dsimp only
    rw [hfinish, xzResult]
    dsimp only
    by_cases hshort : dst.length < stream.length
    · rw [if_pos hshort, if_pos hshort]
      rfl
    · rw [if_neg hshort, if_neg hshort,
        copyFromSlice_of_le (Nat.zero_le _) (Nat.not_lt.mp hshort) rfl]
      rfl

theorem Encoder.exists_encodes (encoder : Encoder ε W)
    (hwrite : ∀ writer data n writer', encoder.write writer data = (.ok n, writer') →
      n ≤ data.length) (src : List UInt8) : ∃ result, encoder.Encodes src result := by
  match hnew : encoder.new (src.length / 3 + 256) with
  | .error e => exact ⟨_, .notMade hnew⟩
  | .ok writer =>
    obtain ⟨result, htakes⟩ := exists_takes hwrite writer src
    match result with
    | none => exact ⟨_, .notWritten hnew htakes⟩
    | some writer' =>
      match hfinish : encoder.finish writer' with
      | .error e => exact ⟨_, .notFinished hnew htakes hfinish⟩
      | .ok stream => exact ⟨_, .finished hnew htakes hfinish⟩

/-! ### The round trip -/

namespace XzCodec

variable {bits : Nat} (codec : XzCodec bits ε W ε' R)

/-- A stream of the encoder is expanded to its source. -/
theorem expand_stream {src stream : List UInt8} (h : codec.encoder.Encodes src (some stream))
    {budget : Nat} (hbudget : src.length < budget) (out : List UInt8) :
    imageforgeXzDecompress codec.decoder budget stream out =
      .done (if out.length < src.length then (-2, out)
        else (src.length, src ++ out.drop src.length)) := by
  obtain ⟨chunks, hdelivers, rfl⟩ := codec.lossless src stream h
  rw [imageforgeXzDecompress_eq hdelivers (hdelivers.length_le.trans_lt hbudget), xzCode,
    if_neg (by decide)]
  by_cases hshort : out.length < chunks.flatten.length
  · rw [if_pos hshort, if_pos hshort]
    rfl
  · rw [if_neg hshort, if_neg hshort, if_pos (Int.natCast_nonneg _)]

end XzCodec

/-- An encoder that knows one source, which it takes byte by byte. -/
def abcEncoder : Encoder Unit (List UInt8) where
  new _ := .ok []
  write writer data := (.ok (min 1 data.length), writer ++ data.take 1)
  finish writer := if writer = [97, 98, 99] then .ok abcXz else .error ()

theorem takes_abcEncoder {writer writer' data : List UInt8} {result : Option (List UInt8)}
    (h : Takes abcEncoder.write writer data result) (hresult : result = some writer') :
    writer' = writer ++ data := by
  induction h with
  | finished w => rw [List.append_nil, Option.some.inj hresult]
  | refused h => cases hresult
  | failed h => cases hresult
  | @piece w w' a as n result h hle rest ih =>
    obtain ⟨hn, hw⟩ := Prod.mk.inj h
    have hone : n = 0 := by
      have hmin : min 1 (a :: as).length = n + 1 := Except.ok.inj hn
      omega
    subst hone
    rw [ih hresult, ← hw, List.append_assoc]
    rfl

theorem encodes_abcEncoder {src stream : List UInt8}
    (h : abcEncoder.Encodes src (some stream)) : src = [97, 98, 99] ∧ stream = abcXz := by
  cases h with
  | @finished writer writer' _ hnew hwrite hfinish =>
    cases Except.ok.inj hnew
    have hwriter : writer' = src := takes_abcEncoder hwrite rfl
    subst hwriter
    by_cases habc : writer' = [97, 98, 99]
    · exact ⟨habc, (Except.ok.inj ((if_pos habc).symm.trans hfinish)).symm⟩
    · cases (if_neg habc).symm.trans hfinish

def abcCodec : XzCodec 32 Unit (List UInt8) Unit (Option (List UInt8)) where
  encoder := abcEncoder
  decoder := abcDecoder abcXz
  write_le := by
    intro writer data n writer' h
    obtain ⟨hn, -⟩ := Prod.mk.inj h
    rw [← Except.ok.inj hn]
    exact Nat.min_le_right 1 _
  bounded := by
    intro src stream h
    obtain ⟨rfl, rfl⟩ := encodes_abcEncoder h
    decide
  lossless := by
    intro src stream h
    obtain ⟨rfl, rfl⟩ := encodes_abcEncoder h
    exact ⟨[[97, 98, 99]], .chunk rfl (.finished rfl), rfl⟩

end ImgTools
