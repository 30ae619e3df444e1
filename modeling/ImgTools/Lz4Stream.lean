import ImgTools.Lz4RoundTrip
import ImgTools.Lz4Window

/-!
# Blocks of a stream

Two facts about blocks that arrive one after another. A block that was cut off is
refused, or it decodes to the beginning of what the whole block decodes to. And the
blocks that the compressor writes for the chunks of a message need no history: a
decoder that goes from block to block restores the chunks, whatever it keeps of the
bytes before.
-/

namespace ImgTools.Lz4

open Exec

/-! ### A block that was cut off -/

/-- The literals of two pieces that start alike are the same. -/
theorem literals_unique {literals literals' back back' : List UInt8} {low low' : Nat}
    (hlow : low ≤ 15) (hlow' : low' ≤ 15)
    (h : token (nibble literals.length) low :: (runs literals.length ++ (literals ++ back)) =
      token (nibble literals'.length) low' ::
        (runs literals'.length ++ (literals' ++ back'))) :
    literals = literals' ∧ back = back' := by
  obtain ⟨htoken, hbytes⟩ := List.cons.inj h
  have hnibble : nibble literals.length = nibble literals'.length := by
    rw [← token_high (nibble_le literals.length) hlow, htoken, token_high (nibble_le _) hlow']
  have hfield := lengthField_runs literals.length (literals ++ back)
  rw [hbytes, hnibble, lengthField_runs] at hfield
  have hlength : literals'.length = literals.length := congrArg Prod.fst (Option.some.inj hfield)
  rw [hlength] at hbytes
  exact List.append_inj (List.append_cancel_left hbytes) hlength.symm

theorem Closing.encode_append (c : Closing) (back : List UInt8) :
    c.encode ++ back = token (nibble c.literals.length) c.ignored.val ::
      (runs c.literals.length ++ (c.literals ++ back)) := by
  rw [Closing.encode, List.cons_append, List.append_assoc]

theorem Sequence.encode_append (s : Sequence) (back : List UInt8) :
    s.encode ++ back = token (nibble s.literals.length) (nibble (s.matchLen - 4)) ::
      (runs s.literals.length ++ (s.literals ++
        (LittleEndian.encode 2 s.offset.toNat ++ runs (s.matchLen - 4) ++ back))) := by
  rw [Sequence.encode, List.cons_append, List.append_assoc, List.append_assoc]

/-- Encodings that start alike start with the same sequence. -/
theorem Sequence.encode_inj {s s' : Sequence} {back back' : List UInt8}
    (h : s.encode ++ back = s'.encode ++ back') : s = s' ∧ back = back' := by
  have hread := readPiece_sequence s back
  rw [h, readPiece_sequence] at hread
  obtain ⟨hs, hback⟩ := Piece.sequence.inj (Option.some.inj hread)
  exact ⟨hs.symm, hback.symm⟩

theorem Block.expand_closing (history : List UInt8) (c : Closing) :
    (Block.mk [] (some c)).expand history = some (history ++ c.literals) := rfl

theorem Block.expand_empty (history : List UInt8) :
    (Block.mk [] none).expand history = some history :=
  congrArg some (List.append_nil history)

/-- The literals of a first sequence are in what a block stands for. -/
theorem Block.literals_isPrefix {history out : List UInt8} {s : Sequence}
    {sequences : List Sequence} {closing : Option Closing}
    (h : (Block.mk (s :: sequences) closing).expand history = some out) :
    history ++ s.literals <+: out := by
  rw [expand_cons] at h
  obtain ⟨grown, hstep, hrest⟩ := Option.bind_eq_some_iff.mp h
  obtain ⟨-, -, rfl⟩ := Lz77.Step.apply_eq_some.mp hstep
  exact (Lz77.prefix_copyBack _ _ _).trans (prefix_expand hrest)

/-- A closing run at the start of a block has the block's first literals. -/
theorem Block.closing_isPrefix {history out back : List UInt8} {c : Closing}
    {sequences : List Sequence} {closing : Option Closing}
    (h : c.encode ++ back = (Block.mk sequences closing).encode)
    (hout : (Block.mk sequences closing).expand history = some out) :
    history ++ c.literals <+: out := by
  have hignored : c.ignored.val ≤ 15 := Nat.le_of_lt_succ c.ignored.isLt
  rw [c.encode_append] at h
  cases sequences with
  | nil =>
    cases closing with
    | none => cases h
    | some c' =>
      have hignored' : c'.ignored.val ≤ 15 := Nat.le_of_lt_succ c'.ignored.isLt
      rw [encode_closing, ← List.append_nil c'.encode, c'.encode_append] at h
      rw [expand_closing] at hout
      rw [(literals_unique hignored hignored' h).1, Option.some.inj hout]
  | cons s sequences =>
    rw [encode_cons, s.encode_append] at h
    rw [(literals_unique hignored (nibble_le _) h).1]
    exact literals_isPrefix hout

/-- A sequence at the start of a block is the block's first. -/
theorem Block.sequence_isFirst {back : List UInt8} {s : Sequence} {sequences : List Sequence}
    {closing : Option Closing} (h : s.encode ++ back = (Block.mk sequences closing).encode) :
    ∃ more, sequences = s :: more ∧ back = (Block.mk more closing).encode := by
  cases sequences with
  | nil =>
    cases closing with
    | none => cases h
    | some c =>
      have hignored : c.ignored.val ≤ 15 := Nat.le_of_lt_succ c.ignored.isLt
      rw [encode_closing, ← List.append_nil c.encode, c.encode_append, s.encode_append] at h
      have hoffset := congrArg List.length (literals_unique (nibble_le _) hignored h).2
      simp only [List.length_append, LittleEndian.length_encode, List.length_nil] at hoffset
      omega
  | cons s' sequences =>
    rw [encode_cons] at h
    obtain ⟨rfl, rfl⟩ := Sequence.encode_inj h
    exact ⟨sequences, rfl, rfl⟩

/-- **A block that was cut off** stands for the beginning of what the whole stands for. -/
theorem Block.expand_of_prefix {sequences sequences' : List Sequence}
    {closing closing' : Option Closing} {history out out' : List UInt8}
    (hbegins : (Block.mk sequences' closing').encode <+: (Block.mk sequences closing).encode)
    (hout : (Block.mk sequences closing).expand history = some out)
    (hout' : (Block.mk sequences' closing').expand history = some out') : out' <+: out := by
  induction sequences' generalizing sequences history with
  | nil =>
    cases closing' with
    | none =>
      rw [expand_empty] at hout'
      rw [← Option.some.inj hout']
      exact prefix_expand hout
    | some c =>
      obtain ⟨back, hback⟩ := hbegins
      rw [expand_closing] at hout'
      rw [← Option.some.inj hout']
      exact closing_isPrefix hback hout
  | cons s rest ih =>
    obtain ⟨back, hback⟩ := hbegins
    rw [encode_cons, List.append_assoc] at hback
    obtain ⟨more, rfl, hmore⟩ := sequence_isFirst hback
    rw [expand_cons] at hout hout'
    obtain ⟨grown, hstep, hrest⟩ := Option.bind_eq_some_iff.mp hout
    rw [hstep] at hout'
    exact ih ⟨back, hmore⟩ hrest hout'

/-- **A truncated block is never decoded to anything else.** If the whole block is
    decoded, its first `k` bytes are refused or decoded to the beginning of that. -/
theorem lz4DecompressBlockWithPrefix_truncated (A : Arith) (input dst : List UInt8)
    (prefixLen k : Nat) (hhistory : prefixLen ≤ dst.length)
    (hfits : NoOverflow A input dst.length) {w : Nat} {whole : List UInt8}
    (hwhole : lz4DecompressBlockWithPrefix A input dst prefixLen = .done (some w, whole)) :
    ∃ result dst', lz4DecompressBlockWithPrefix A (input.take k) dst prefixLen =
        .done (result, dst') ∧
      ∀ w', result = some w' →
        w' ≤ w ∧ dst'.take (prefixLen + w') = whole.take (prefixLen + w') := by
  have hless : NoOverflow A (input.take k) dst.length := by
    refine Arith.Fits.mono hfits ?_
    have hle := List.length_take_le' k input
    omega
  obtain ⟨_, _, hrun, hsome, hbytes, -, -⟩ :=
    lz4DecompressBlockWithPrefix_correct A input dst prefixLen hhistory hfits
  obtain ⟨rfl, rfl⟩ := Prod.mk.inj (Outcome.done.inj (hwhole.symm.trans hrun))
  obtain ⟨result, dst', hrun', hsome', hbytes', -, -⟩ :=
    lz4DecompressBlockWithPrefix_correct A (input.take k) dst prefixLen hhistory hless
  refine ⟨result, dst', hrun', ?_⟩
  intro w' hw'
  obtain ⟨b, out, rfl, hout, hlength, hroom⟩ := (hsome w).mp rfl
  obtain ⟨b', out', hencode, hout', hlength', hroom'⟩ := (hsome' w').mp hw'
  have hbegins : out' <+: out := by
    obtain ⟨sequences, closing⟩ := b
    obtain ⟨sequences', closing'⟩ := b'
    exact Block.expand_of_prefix (hencode ▸ List.take_prefix _ _) hout hout'
  have hle := hbegins.length_le
  refine ⟨by omega, ?_⟩
  rw [hbytes b out rfl hout (by omega), hbytes' b' out' hencode hout' (by omega), ← hlength',
    List.take_left, List.take_append_of_le_length hle]
  exact List.prefix_iff_eq_take.mp hbegins

/-- Two literals and a match behind one byte, without the bytes of the match. -/
theorem lz4DecompressBlockWithPrefix_truncated_literals :
    ∃ result dst', lz4DecompressBlockWithPrefix (.wrapping 32)
        (([0x20, 9, 8, 2, 0] : List UInt8).take 3) [7, 0, 0, 0, 0, 0, 0] 1 = .done (result, dst') ∧
      ∀ w', result = some w' →
        w' ≤ 6 ∧ dst'.take (1 + w') = [7, 9, 8, 9, 8, 9, 8].take (1 + w') :=
  lz4DecompressBlockWithPrefix_truncated (.wrapping 32) [0x20, 9, 8, 2, 0] [7, 0, 0, 0, 0, 0, 0]
    1 3 (by decide) (by decide) (by decide)

/-! ### Blocks that need no history -/

/-- A block of the compressor behind any history, on the words of an ABI. -/
theorem decode_compressed {w : Nat} {chunk out out' : List UInt8} {k : Nat}
    (hrun : lz4CompressBlock chunk out = .done (some k, out')) (kept free : List UInt8)
    (habi : Abi w (out'.take k).length (kept ++ free).length)
    (hroom : chunk.length ≤ free.length) :
    lz4DecompressBlockWithPrefix (.wrapping w) (out'.take k) (kept ++ free) kept.length =
      .done (some chunk.length, kept ++ (chunk ++ free.drop chunk.length)) := by
  obtain ⟨_, hrun', hpacks⟩ := lz4CompressBlock_spec chunk out
  cases hrun.symm.trans hrun'
  obtain ⟨-, b, hencode, hexpand⟩ := hpacks k rfl
  rw [← hencode] at habi ⊢
  have hexpand' : b.expand ((kept ++ free).take kept.length) = some (kept ++ chunk) := by
    rw [List.take_left]
    have h := Block.expand_append_left hexpand kept
    rwa [List.append_nil] at h
  have hhistory : kept.length ≤ (kept ++ free).length := by
    rw [List.length_append]
    omega
  have hfit : (kept ++ chunk).length ≤ (kept ++ free).length := by
    rw [List.length_append, List.length_append]
    omega
  have hunbounded := lz4DecompressBlockWithPrefix_expand (A := .unbounded) hhistory
    (Arith.fits_unbounded _) hexpand' hfit
  have hsafe : wrapSafe w b.encode (kept ++ free).length kept.length = true := by
    rw [List.take_left] at hexpand'
    exact wrapSafeFrom_of_expand _ b.sequences kept (kept ++ chunk) hexpand' hfit (Nat.le_refl _)
  obtain ⟨r, hwrapping, hsame⟩ := sameResult_of_wrapSafe habi hhistory hsafe
  rw [hwrapping, ← hsame, hunbounded, List.length_append, Nat.add_sub_cancel_left,
    List.append_assoc, ← List.drop_drop, List.drop_left]

/-- A chunk of a message with the block that was written for it, and the room that a
    decoder has for the chunk. -/
structure Compressed where
  chunk : List UInt8
  buffer : List UInt8
  written : Nat
  filled : List UInt8
  free : List UInt8
  run : lz4CompressBlock chunk buffer = .done (some written, filled)
  room : chunk.length ≤ free.length

def Compressed.block (c : Compressed) : List UInt8 := c.filled.take c.written

/-- The block and the buffer of a chunk can be allocated, with `limit` bytes kept. -/
structure Compressed.Fits (w limit : Nat) (c : Compressed) : Prop where
  block_le : c.block.length ≤ 2 ^ (w - 1) - 1
  buffer_le : limit + c.free.length ≤ 2 ^ (w - 1) - 1

/-- **A frame of compressed chunks is decoded to its chunks**, whatever the decoder
    keeps from block to block. -/
theorem decodeChain_compressed {w limit : Nat} (hw : 8 ≤ w) {keep : List UInt8 → List UInt8}
    (hkeep : ∀ bytes, (keep bytes).length ≤ limit) (frame : List Compressed)
    (hframe : ∀ c ∈ frame, c.Fits w limit) (kept : List UInt8) (hkept : kept.length ≤ limit) :
    decodeChain (.wrapping w) keep (frame.map fun c => (c.block, c.free)) kept =
      .done (some (frame.map Compressed.chunk)) := by
  induction frame generalizing kept with
  | nil => rfl
  | cons c frame ih =>
    have hfits := hframe c List.mem_cons_self
    have hblock := hfits.block_le
    have hbuffer := hfits.buffer_le
    have hpos : 0 < 2 ^ (w - 1) := Nat.two_pow_pos _
    have habi : Abi w c.block.length (kept ++ c.free).length := by
      refine ⟨hw, by omega, ?_⟩
      rw [List.length_append]
      omega
    have hdecoded := decode_compressed c.run kept c.free habi c.room
    have hrest := ih (fun c' hc' => hframe c' (List.mem_cons_of_mem c hc')) (keep (kept ++ c.chunk))
      (hkeep _)
    rw [List.map_cons, decodeChain, Compressed.block, hdecoded, Outcome.done_bind]
    simp only [List.drop_left, List.take_left]
    rw [hrest]
    rfl

def twenty : Compressed where
  chunk := List.replicate 20 7
  buffer := List.replicate 10 0
  written := 10
  filled := [26, 7, 1, 0, 80, 7, 7, 7, 7, 7]
  free := List.replicate 20 0
  run := by decide +kernel
  room := by decide

/-- The chunk, twice, before a decoder that starts from three bytes and keeps the last
    eight from block to block. -/
theorem decodeChain_compressed_twenty :
    let block := ([26, 7, 1, 0, 80, 7, 7, 7, 7, 7], List.replicate 20 0)
    decodeChain (.wrapping 32) (fun bytes => bytes.drop (bytes.length - 8)) [block, block]
      [1, 2, 3] = .done (some [List.replicate 20 7, List.replicate 20 7]) := by
  have hfits : twenty.Fits 32 8 := ⟨by decide, by decide⟩
  have hframe : ∀ c ∈ [twenty, twenty], c.Fits 32 8 := by
    intro c hc
    rcases List.mem_cons.mp hc with rfl | hc
    · exact hfits
    · rw [List.mem_singleton.mp hc]
      exact hfits
  have hkeep : ∀ bytes : List UInt8, (bytes.drop (bytes.length - 8)).length ≤ 8 := by
    intro bytes
    rw [List.length_drop]
    omega
  exact decodeChain_compressed (by decide) hkeep [twenty, twenty] hframe [1, 2, 3] (by decide)

end ImgTools.Lz4
