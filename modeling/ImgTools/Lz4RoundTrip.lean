import ImgTools.Lz4DecoderWrapSafe
import ImgTools.Lz4EncoderTurn

/-!
# The LZ4 round trip

The compressor never panics, and what it has written when it succeeds is the
encoding of a block that expands to its input (`lz4CompressBlock_spec`). The
invariant of its main loop, `Emitted`, says this of the input up to the anchor.

On the decoder's side a block whose expansion fits the buffer is `wrapSafe`, so
the round trip holds on wrapping words as well, without a bound on the sums of
the length bytes.
-/

namespace ImgTools.Lz4

open Exec

section Encoder

variable {input : List UInt8}

/-- The sequences written so far expand to the input up to the anchor. -/
structure Emitted (input : List UInt8) (s : Encoder) : Prop where
  anchored : s.anchor ≤ s.i
  inside : s.i ≤ input.length
  emitted : ∃ (sequences : List Sequence) (rest : List UInt8),
    s.output = sequences.flatMap Sequence.encode ++ rest ∧
    s.pos = (sequences.flatMap Sequence.encode).length ∧
    Lz77.expand [] (sequences.map Sequence.step) = some (input.take s.anchor)

/-- What the compressor returns: nothing, or the end of a block for the input. -/
def Packs (input : List UInt8) (r : Encoded) : Prop :=
  ∀ k, r.1 = some k → k ≤ r.2.length ∧
    ∃ b : Block, b.encode = r.2.take k ∧ b.expand [] = some input

theorem Repeats.offset_lt {limit start pos length : Nat}
    (h : Repeats input limit start pos length) :
    (UInt16.ofNat (pos - start)).toNat = pos - start := by
  have hnear := h.near
  unfold lz4MaxOffset at hnear
  exact UInt16.toNat_ofNat_of_lt' (show _ < 2 ^ 16 by omega)

def Repeats.sequence {limit start pos length : Nat} (h : Repeats input limit start pos length)
    (anchor : Nat) : Sequence where
  literals := (input.drop anchor).take (pos - anchor)
  offset := UInt16.ofNat (pos - start)
  matchLen := length
  minMatch := h.long

/-- Such a sequence takes the input up to the anchor to the input up to its end. -/
theorem Repeats.sequence_apply {limit start pos length anchor : Nat}
    (h : Repeats input limit start pos length) (hlimit : limit ≤ input.length)
    (hanchor : anchor ≤ pos) :
    (h.sequence anchor).step.apply (input.take anchor) = some (input.take (pos + length)) := by
  have hbefore := h.before
  have hinside := h.inside
  have hwindow : input.take anchor ++ (input.drop anchor).take (pos - anchor) =
      input.take pos := by
    rw [← List.take_add, Nat.add_sub_cancel' hanchor]
  have hlength : (input.take pos).length = pos := by
    rw [List.length_take]
    omega
  rw [Sequence.step_apply]
  simp only [sequence, hwindow, hlength, h.offset_lt]
  rw [if_pos (by omega), Lz77.copyBack_take (by omega) (by omega) _ (by omega)]
  intro j hj
  rw [← h.same j hj]
  congr 1
  omega

theorem Repeats.expand_append {limit start pos length anchor : Nat}
    (h : Repeats input limit start pos length) (hlimit : limit ≤ input.length)
    (hanchor : anchor ≤ pos) {sequences : List Sequence}
    (hexpand : Lz77.expand [] (sequences.map Sequence.step) = some (input.take anchor)) :
    Lz77.expand [] ((sequences ++ [h.sequence anchor]).map Sequence.step) =
      some (input.take (pos + length)) := by
  rw [List.map_append, Lz77.expand_append, hexpand, Option.bind_some]
  simp only [List.map_cons, List.map_nil, Lz77.expand_cons]
  rw [h.sequence_apply hlimit hanchor]
  rfl

/-! ### What a turn can do -/

def writeSequence (input : List UInt8) (anchor literalLen : Nat) (offset : UInt16)
    (matchCode pos : Nat) (output : List UInt8) : Outcome Encoded := do
  match ← writeLiterals input anchor literalLen (tokenNibble matchCode) pos output with
  | (none, output) => return (none, output)
  | (some pos, output) => writeMatch offset matchCode pos output

theorem writeSequence_writesIn {limit start pos length anchor : Nat}
    (h : Repeats input limit start pos length) (hlimit : limit ≤ input.length)
    (hanchor : anchor ≤ pos) (written rest : List UInt8) :
    WritesIn (h.sequence anchor).encode written rest
      (writeSequence input anchor (pos - anchor) (UInt16.ofNat (pos - start))
        (length - lz4MinMatch) written.length (written ++ rest)) := by
  have hinside := h.inside
  have hcount : ((input.drop anchor).take (pos - anchor)).length = pos - anchor := by
    rw [List.length_take, List.length_drop]
    omega
  have hencode : (h.sequence anchor).encode =
      token (nibble (pos - anchor)) (nibble (length - lz4MinMatch)) ::
        (runs (pos - anchor) ++ (input.drop anchor).take (pos - anchor)) ++
      (LittleEndian.encode 2 (UInt16.ofNat (pos - start)).toNat ++ runs (length - lz4MinMatch)) := by
    simp only [Repeats.sequence, Sequence.encode, hcount, lz4MinMatch, List.cons_append,
      List.append_assoc]
  rw [hencode]
  exact (writeLiterals_writesIn (length - lz4MinMatch)
    (show anchor + (pos - anchor) ≤ input.length by omega) written rest).bind (fun _ => rfl)
    (writeMatch_writesIn _ _ _ _)

def afterWrite (next : Nat → List UInt8 → Encoder) : Encoded → Turn Encoder Encoded
  | (none, output) => .exit (none, output)
  | (some pos, output) => .next (next pos output)

/-- **The sequence of a match**, which depends on nothing that has been written. The
    match may start before the position it was found at, and ends where it was
    found to end. -/
theorem emitMatch_writesIn {anchor i : Nat} (hanchored : anchor ≤ i)
    {limit candidate matchLen : Nat} (hlimit : limit + 3 ≤ input.length)
    (h : Repeats input limit candidate i matchLen) (tables : Tables) :
    ∃ (start pos length : Nat) (hrep : Repeats input limit start pos length) (tables' : Tables),
      (anchor ≤ pos ∧ pos ≤ i ∧ pos + length = i + matchLen) ∧
      ∀ (old : Tables) (written rest : List UInt8), ∃ run,
        WritesIn (hrep.sequence anchor).encode written rest run ∧
        emitMatch input ⟨old, written.length, anchor, i, written ++ rest⟩ tables candidate
          matchLen = run >>= fun encoded => .done (afterWrite
            (fun pos' output => ⟨tables', pos', pos + length, pos + length, output⟩) encoded) := by
  obtain ⟨start, pos, length, hback, hrep, hanchor, hle, hend⟩ :=
    extendBack_spec (show limit ≤ input.length by omega) hanchored h
  have hbefore := hrep.before
  have hlong := hrep.long
  have hin : i + 1 + (pos + length - (i + 1)) + 3 ≤ input.length := by
    have hinside := h.inside
    have hlong := h.long
    unfold lz4MinMatch at *
    omega
  obtain ⟨tables', hinsert⟩ := insertInside_done hin tables
  have hsub : ∀ a b, b ≤ a → Arith.unbounded.sub a b = .done (a - b) :=
    fun a b hle => Arith.sub_of_le (Arith.fits_unbounded _) hle
  refine ⟨start, pos, length, hrep, tables', ⟨hanchor, hle, hend⟩, fun old written rest => ?_⟩
  refine ⟨_, writeSequence_writesIn hrep (show limit ≤ input.length by omega) hanchor
    written rest, ?_⟩
  rw [emitMatch, hback, Outcome.done_bind]
  simp only [hsub _ _ hanchor, hsub _ _ hlong, hsub _ _ (Nat.le_of_lt hbefore),
    Outcome.done_bind, hinsert, writeSequence, bind_assoc]
  refine bind_congr ?_
  rintro ⟨_ | pos', output⟩
  · rfl
  · refine bind_congr ?_
    rintro ⟨_ | pos', output⟩ <;> rfl

/-- The sequence of a match is appended, or there is no room for it. -/
theorem emitMatch_writes {s : Encoder} {written rest : List UInt8}
    (houtput : s.output = written ++ rest)
    (hpos : s.pos = written.length) (hanchored : s.anchor ≤ s.i) {limit candidate matchLen : Nat}
    (hlimit : limit + 3 ≤ input.length) (h : Repeats input limit candidate s.i matchLen)
    (tables : Tables) :
    (∃ (start pos length : Nat) (hrep : Repeats input limit start pos length) (tables' : Tables)
        (rest' : List UInt8),
      emitMatch input s tables candidate matchLen = .done (.next ⟨tables',
        (written ++ (hrep.sequence s.anchor).encode).length, pos + length, pos + length,
        written ++ (hrep.sequence s.anchor).encode ++ rest'⟩) ∧
      s.anchor ≤ pos ∧ pos ≤ s.i ∧ pos + length = s.i + matchLen) ∨
    (∃ output, emitMatch input s tables candidate matchLen = .done (.exit (none, output))) := by
  obtain ⟨old, pos', anchor, i, output⟩ := s
  simp only at houtput hpos hanchored h ⊢
  subst houtput hpos
  obtain ⟨start, pos, length, hrep, tables', hspan, hwrites⟩ :=
    emitMatch_writesIn hanchored hlimit h tables
  obtain ⟨run, hrun, hemit⟩ := hwrites old written rest
  rcases hrun.writes with ⟨output, hfail⟩ | ⟨rest', hwritten⟩
  · exact Or.inr ⟨output, by rw [hemit, hfail]; rfl⟩
  · exact Or.inl ⟨start, pos, length, hrep, tables', rest', by rw [hemit, hwritten]; rfl, hspan⟩

/-- The literals behind the anchor are appended as a closing run. -/
theorem writeClosing_writesIn {anchor : Nat} (hanchor : anchor ≤ input.length) (tables : Tables)
    (i : Nat) (written rest : List UInt8) :
    WritesIn (Closing.mk (input.drop anchor) 0).encode written rest
      (writeClosing input ⟨tables, written.length, anchor, i, written ++ rest⟩) := by
  have hsub : Arith.unbounded.sub input.length anchor = .done (input.length - anchor) :=
    Arith.sub_of_le (Arith.fits_unbounded _) hanchor
  have hall : (input.drop anchor).take (input.length - anchor) = input.drop anchor :=
    List.take_of_length_le (by rw [List.length_drop])
  have hwrites := writeLiterals_writesIn 0
    (show anchor + (input.length - anchor) ≤ input.length by omega) written rest
  rw [hall] at hwrites
  rw [writeClosing, hsub, Outcome.done_bind, Closing.encode, List.length_drop]
  exact hwrites

/-- The literals behind the anchor of a state are appended, or there is no room for them. -/
theorem writeClosing_writes {s : Encoder} {written rest : List UInt8}
    (houtput : s.output = written ++ rest) (hpos : s.pos = written.length)
    (hanchor : s.anchor ≤ input.length) :
    Writes (Closing.mk (input.drop s.anchor) 0).encode written (writeClosing input s) := by
  obtain ⟨tables, pos, anchor, i, output⟩ := s
  simp only at houtput hpos
  subst houtput hpos
  exact (writeClosing_writesIn hanchor tables i written rest).writes

/-- **One turn of the compressor**, whatever the tables hold and whatever has been
    written: near the end of the input it writes the closing literals; before it,
    it goes on by one byte or writes the sequence of a repetition. -/
theorem compressTurn_uniform (tables : Tables) (anchor i : Nat) :
    (input.length < i + 12 ∧ ∀ pos output, compressTurn input ⟨tables, pos, anchor, i, output⟩ = do
      return .exit (← writeClosing input ⟨tables, pos, anchor, i, output⟩)) ∨
    (i + 12 ≤ input.length ∧ ∃ tables', ∀ pos output,
      compressTurn input ⟨tables, pos, anchor, i, output⟩ =
        .done (.next ⟨tables', pos, anchor, i + 1, output⟩)) ∨
    (i + 12 ≤ input.length ∧ ∃ tables' candidate matchLen,
      Repeats input (input.length - 5) candidate i matchLen ∧ ∀ pos output,
        compressTurn input ⟨tables, pos, anchor, i, output⟩ =
          emitMatch input ⟨tables, pos, anchor, i, output⟩ tables' candidate matchLen) := by
  by_cases hend : input.length < i + lz4MfLimit
  · exact Or.inl ⟨hend, fun pos output => if_pos hend⟩
  have hroom : i + 12 ≤ input.length := Nat.not_lt.mp hend
  -- the tables choose the candidates only, and any candidates will do
  have hturn : ∀ pos output, compressTurn input ⟨tables, pos, anchor, i, output⟩ =
      afterSearch input ⟨tables, pos, anchor, i, output⟩ (foundAt input i tables)
        (lazyStep input i (foundAt input i tables) (tables.record (hashAt input i) i)) :=
    fun pos output => compressTurn_eq hroom
  generalize lazyStep input i _ _ = step at hturn
  obtain ⟨deferred, tables'⟩ := step
  rcases hfound : foundAt input i tables with _ | ⟨candidate, matchLen⟩
  · rw [hfound] at hturn
    exact Or.inr (Or.inl ⟨hroom, tables', hturn⟩)
  · rw [hfound] at hturn
    cases deferred with
    | true => exact Or.inr (Or.inl ⟨hroom, tables', hturn⟩)
    | false =>
      have hrepeats := (foundAt_maximalMatch hroom hfound).toRepeats
      exact Or.inr (Or.inr ⟨hroom, tables', candidate, matchLen, hrepeats, hturn⟩)

/-- One turn of the compressor from one state. -/
theorem compressTurn_cases (s : Encoder) :
    (input.length < s.i + 12 ∧ compressTurn input s = do
      return .exit (← writeClosing input s)) ∨
    (s.i + 12 ≤ input.length ∧ ∃ tables,
      compressTurn input s = .done (.next { s with tables := tables, i := s.i + 1 })) ∨
    (s.i + 12 ≤ input.length ∧ ∃ tables candidate matchLen,
      Repeats input (input.length - 5) candidate s.i matchLen ∧
      compressTurn input s = emitMatch input s tables candidate matchLen) := by
  rcases compressTurn_uniform s.tables s.anchor s.i with ⟨hend, hrun⟩ | ⟨hroom, tables, hrun⟩ |
    ⟨hroom, tables, candidate, matchLen, hrep, hrun⟩
  · exact Or.inl ⟨hend, hrun s.pos s.output⟩
  · exact Or.inr (Or.inl ⟨hroom, tables, hrun s.pos s.output⟩)
  · exact Or.inr (Or.inr ⟨hroom, tables, candidate, matchLen, hrep, hrun s.pos s.output⟩)

/-! ### The invariant of the main loop -/

/-- The sequence of a match keeps the invariant. -/
theorem emitMatch_spec {s : Encoder} (hs : Emitted input s) {limit candidate matchLen : Nat}
    (hlimit : limit + 3 ≤ input.length) (h : Repeats input limit candidate s.i matchLen)
    (tables : Tables) :
    (∃ s', emitMatch input s tables candidate matchLen = .done (.next s') ∧ Emitted input s' ∧
      s.i < s'.i) ∨
    (∃ output, emitMatch input s tables candidate matchLen = .done (.exit (none, output))) := by
  obtain ⟨sequences, rest, houtput, hpos, hexpand⟩ := hs.emitted
  rcases emitMatch_writes houtput hpos hs.anchored hlimit h tables with
    ⟨start, pos, length, hrep, tables', rest', hrun, hanchor, -, hend⟩ | hexit
  · have hinside := hrep.inside
    have hlong := h.long
    unfold lz4MinMatch at hlong
    refine Or.inl ⟨_, hrun, ⟨Nat.le_refl _, by simp only; omega, ?_⟩, by simp only; omega⟩
    refine ⟨sequences ++ [hrep.sequence s.anchor], rest', by simp, by simp, ?_⟩
    exact hrep.expand_append (by omega) hanchor hexpand
  · exact Or.inr hexit

/-- The literals after the last match complete the block, or there is no room for them. -/
theorem writeClosing_spec {s : Encoder} (hs : Emitted input s) :
    ∃ r, writeClosing input s = .done r ∧ Packs input r := by
  obtain ⟨sequences, rest, houtput, hpos, hexpand⟩ := hs.emitted
  rcases writeClosing_writes houtput hpos (hs.anchored.trans hs.inside) with
    ⟨output, hrun⟩ | ⟨rest', hrun⟩
  · exact ⟨_, hrun, by simp [Packs]⟩
  · refine ⟨_, hrun, ?_⟩
    intro k hk
    obtain rfl := Option.some.inj hk
    refine ⟨(List.prefix_append _ _).length_le,
      ⟨sequences, some ⟨input.drop s.anchor, 0⟩⟩, ?_, ?_⟩
    · rw [List.take_left]
      rfl
    · rw [Block.expand, hexpand]
      simp

/-- A turn of the compressor keeps the invariant. -/
theorem compressTurn_spec {s : Encoder} (hs : Emitted input s) :
    (∃ s', compressTurn input s = .done (.next s') ∧ Emitted input s' ∧ s.i < s'.i) ∨
    (∃ r, compressTurn input s = .done (.exit r) ∧ Packs input r) := by
  rcases compressTurn_cases s with ⟨-, hrun⟩ | ⟨hroom, tables, hrun⟩ |
    ⟨hroom, tables, candidate, matchLen, hrep, hrun⟩
  · obtain ⟨r, hclosing, hpacks⟩ := writeClosing_spec hs
    exact Or.inr ⟨r, by rw [hrun, hclosing]; rfl, hpacks⟩
  · exact Or.inl ⟨_, hrun, ⟨Nat.le_succ_of_le hs.anchored, by simp only; omega, hs.emitted⟩,
      Nat.lt_succ_self _⟩
  · rw [hrun]
    rcases emitMatch_spec hs (by omega) hrep tables with hnext | ⟨output, hexit⟩
    · exact Or.inl hnext
    · exact Or.inr ⟨_, hexit, by simp [Packs]⟩

/-- **The compressor writes a block for its input**, or reports that it has no room. -/
theorem lz4CompressBlock_spec (input output : List UInt8) :
    ∃ r, lz4CompressBlock input output = .done r ∧ Packs input r := by
  unfold lz4CompressBlock
  by_cases hempty : input.length = 0
  · obtain rfl := List.length_eq_zero_iff.mp hempty
    refine ⟨_, if_pos hempty, ?_⟩
    intro k hk
    obtain rfl := Option.some.inj hk
    exact ⟨Nat.zero_le _, ⟨[], none⟩, rfl, rfl⟩
  rw [if_neg hempty]
  exact loop_spec (compressTurn input) (Emitted input) (fun s => input.length - s.i)
    (fun _ r => Packs input r)
    (fun s hs => by
      rcases compressTurn_spec hs with ⟨s', hrun, hs', hlt⟩ | hexit
      · have hinside := hs'.inside
        exact Or.inl ⟨s', hrun, hs', by omega, fun _ h => h⟩
      · exact Or.inr hexit)
    (input.length + 1) ⟨Tables.fresh, 0, 0, 0, output⟩
    ⟨Nat.le_refl _, Nat.zero_le _, [], output, rfl, rfl, by simp⟩ (by simp only; omega)

end Encoder

/-! ### The decoder's side -/

/-- Final literals that the buffer has room for are safe. -/
theorem wrapSafeFrom_closing {w n cap dp : Nat} (c : Closing)
    (hroom : dp + c.literals.length ≤ cap) (hlen : c.encode.length ≤ n) (budget : Nat) :
    wrapSafeFrom w n cap (budget + 1) true c.encode dp = true := by
  have hignored : c.ignored.val ≤ 15 := Nat.le_of_lt_succ c.ignored.isLt
  simp only [Closing.encode, List.length_cons, List.length_append] at hlen
  simp only [Closing.encode, wrapSafeFrom, token_high (nibble_le _) hignored, lengthField_runs,
    List.drop_left']
  split
  · rfl
  · rw [if_pos ⟨trivial, by omega, by omega⟩, List.drop_length]
    rfl

/-- A sequence that the buffer has room for is safe if what follows it is. -/
theorem wrapSafeFrom_sequence {w n cap dp : Nat} (s : Sequence) (rest : List UInt8)
    (hroom : dp + s.literals.length + s.matchLen ≤ cap) (hlen : (s.encode ++ rest).length ≤ n)
    {budget : Nat}
    (hrest : wrapSafeFrom w n cap budget true rest (dp + s.literals.length + s.matchLen) = true) :
    wrapSafeFrom w n cap (budget + 1) true (s.encode ++ rest) dp = true := by
  have hmin := s.minMatch
  simp only [Sequence.encode, List.cons_append, List.append_assoc, List.length_cons,
    List.length_append] at hlen
  simp only [Sequence.encode, List.cons_append, List.append_assoc, wrapSafeFrom,
    token_high (nibble_le _) (nibble_le _), token_low (nibble_le _) (nibble_le _),
    lengthField_runs, List.drop_left']
  split
  · rfl
  · simp only [List.length_append]
    rw [if_pos ⟨trivial, by omega, by omega⟩]
    simp only [LittleEndian.encode, List.cons_append, List.nil_append, wrapSafeReference,
      lengthField_runs, List.drop_left', Nat.sub_add_cancel hmin]
    split
    · rfl
    · split
      · rfl
      · rw [if_pos ⟨trivial, hroom⟩, hrest]

/-- A block whose expansion fits the buffer is safe on every word. -/
theorem wrapSafeFrom_of_expand {w n cap : Nat} {closing : Option Closing} :
    ∀ (budget : Nat) (sequences : List Sequence) (window out : List UInt8),
      (Block.mk sequences closing).expand window = some out → out.length ≤ cap →
      (Block.mk sequences closing).encode.length ≤ n →
      wrapSafeFrom w n cap budget true (Block.mk sequences closing).encode window.length =
        true := by
  intro budget
  induction budget with
  | zero => intro sequences window out _ _ _; rfl
  | succ budget ih =>
    intro sequences window out hout hroom hlen
    match sequences, closing with
    | [], none => rfl
    | [], some c =>
      have heq : out = window ++ c.literals := by simpa [Block.expand] using hout.symm
      rw [heq, List.length_append] at hroom
      rw [Block.encode_closing] at hlen ⊢
      exact wrapSafeFrom_closing c hroom hlen budget
    | s :: sequences, closing =>
      rw [Block.expand_cons] at hout
      obtain ⟨grown, happly, hrest⟩ := Option.bind_eq_some_iff.mp hout
      obtain ⟨-, hgrown⟩ := Lz77.Step.apply_grows happly
      have hlength : grown.length = window.length + s.literals.length + s.matchLen := hgrown
      have hgrow := (Block.prefix_expand hrest).length_le
      rw [Block.encode_cons] at hlen ⊢
      have hafter := ih sequences grown out hrest hroom (by
        rw [List.length_append] at hlen
        omega)
      rw [hlength] at hafter
      exact wrapSafeFrom_sequence s _ (by omega) hlen hafter

/-- **The LZ4 round trip.** The compressor never panics; what it has written when it
    succeeds is decompressed to its input, in every buffer that can hold it, on
    unbounded integers as on the wrapping words of every ABI. -/
theorem lz4CompressBlock_roundTrip (x out : List UInt8) :
    ∃ result out', lz4CompressBlock x out = .done (result, out') ∧
      ∀ k, result = some k → k ≤ out'.length ∧ ∀ dst : List UInt8, x.length ≤ dst.length →
        ∃ dst', dst'.take x.length = x ∧
          lz4DecompressBlock .unbounded (out'.take k) dst = .done (some x.length, dst') ∧
          ∀ w, 8 ≤ w → k ≤ 2 ^ (w - 1) - 1 → dst.length ≤ 2 ^ (w - 1) - 1 →
            lz4DecompressBlock (.wrapping w) (out'.take k) dst =
              .done (some x.length, dst') := by
  obtain ⟨⟨result, out'⟩, hrun, hpacks⟩ := lz4CompressBlock_spec x out
  refine ⟨result, out', hrun, ?_⟩
  intro k hk
  obtain ⟨hle, b, hencode, hexpand⟩ := hpacks k hk
  refine ⟨hle, ?_⟩
  intro dst hroom
  have hunbounded : lz4DecompressBlock .unbounded (out'.take k) dst =
      .done (some x.length, x ++ dst.drop x.length) := by
    rw [← hencode]
    exact lz4DecompressBlockWithPrefix_expand (Nat.zero_le dst.length) (Arith.fits_unbounded _)
      (by rw [List.take_zero, hexpand]) hroom
  refine ⟨x ++ dst.drop x.length, List.take_left, hunbounded, ?_⟩
  intro w hw hinput hcap
  have hpos : 0 < 2 ^ (w - 1) := Nat.two_pow_pos _
  have hlength : (out'.take k).length = k := List.length_take_of_le hle
  have habi : Abi w (out'.take k).length dst.length := ⟨hw, by omega, by omega⟩
  have hsafe : wrapSafe w (out'.take k) dst.length 0 = true := by
    rw [← hencode]
    exact wrapSafeFrom_of_expand _ b.sequences [] x hexpand hroom (Nat.le_refl _)
  obtain ⟨r, hwrapping, hsame⟩ := sameResult_of_wrapSafe habi (Nat.zero_le _) hsafe
  exact hwrapping.trans (hsame.symm.trans hunbounded)

end ImgTools.Lz4
