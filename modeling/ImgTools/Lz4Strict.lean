import ImgTools.Lz4RoundTrip

/-!
# Blocks for strict decoders

The LZ4 format asks more of the end of a block than a decoder needs to expand it:
the last five bytes are literals, and no match starts in the last twelve. What
the compressor writes keeps these rules, through the extension of a match in
both directions and the deferral of a match by a byte.
-/

namespace ImgTools.Lz4

open Exec

def endOf (start : Nat) (sequences : List Sequence) : Nat :=
  sequences.foldl (fun p s => p + s.literals.length + s.matchLen) start

/-- The rules for a sequence whose literals start at `start` of an output of `n` bytes. -/
structure Sequence.Strict (n start : Nat) (s : Sequence) : Prop where
  long : 4 ≤ s.matchLen
  back : 1 ≤ s.offset.toNat
  near : s.offset.toNat ≤ 65535
  within : s.offset.toNat ≤ start + s.literals.length
  early : start + s.literals.length + 12 ≤ n

def Strict (n : Nat) : Nat → List Sequence → Prop
  | _, [] => True
  | start, s :: sequences =>
    s.Strict n start ∧ Strict n (start + s.literals.length + s.matchLen) sequences

theorem endOf_append (start : Nat) (sequences : List Sequence) (s : Sequence) :
    endOf start (sequences ++ [s]) =
      endOf start sequences + s.literals.length + s.matchLen := by
  rw [endOf, List.foldl_append]
  rfl

theorem Strict.append {n start : Nat} {sequences : List Sequence} {s : Sequence}
    (h : Strict n start sequences) (hs : s.Strict n (endOf start sequences)) :
    Strict n start (sequences ++ [s]) := by
  induction sequences generalizing start with
  | nil => exact ⟨hs, trivial⟩
  | cons first sequences ih => exact ⟨h.1, ih h.2 hs⟩

/-- A block without room for a match has none. -/
theorem Strict.eq_nil {n : Nat} {sequences : List Sequence} (h : Strict n 0 sequences)
    (hshort : n < 13) : sequences = [] := by
  cases sequences with
  | nil => rfl
  | cons s sequences =>
    have hback := h.1.back
    have hwithin := h.1.within
    have hearly := h.1.early
    omega

section Encoder

variable {input : List UInt8}

/-- The literals in front of a repetition end where it starts. -/
theorem Repeats.literals_end {limit start pos length anchor : Nat}
    (h : Repeats input limit start pos length) (hanchor : anchor ≤ pos)
    (hpos : pos ≤ input.length) : anchor + (h.sequence anchor).literals.length = pos := by
  rw [Repeats.sequence, List.length_take, List.length_drop]
  omega

/-- The sequence of a repetition that starts early enough keeps the rules. -/
theorem Repeats.strict {limit start pos length anchor : Nat}
    (h : Repeats input limit start pos length) (hanchor : anchor ≤ pos)
    (hearly : pos + 12 ≤ input.length) :
    (h.sequence anchor).Strict input.length anchor := by
  have hbefore := h.before
  have hnear := h.near
  have hliterals := h.literals_end hanchor (by omega)
  have hoffset : (h.sequence anchor).offset.toNat = pos - start := h.offset_lt
  unfold lz4MaxOffset at hnear
  constructor
  · exact h.long
  all_goals omega

/-- The sequences written so far keep the rules and end at the anchor, which
    leaves the last literals. -/
structure StrictlyEmitted (input : List UInt8) (s : Encoder) : Prop where
  anchored : s.anchor ≤ s.i
  inside : s.i ≤ input.length
  last : s.anchor = 0 ∨ s.anchor + 5 ≤ input.length
  emitted : ∃ (sequences : List Sequence) (rest : List UInt8),
    s.output = sequences.flatMap Sequence.encode ++ rest ∧
    s.pos = (sequences.flatMap Sequence.encode).length ∧
    Strict input.length 0 sequences ∧ endOf 0 sequences = s.anchor

/-- What a strict decoder asks of the `k` bytes that were written. -/
def StrictlyPacks (input : List UInt8) (r : Encoded) : Prop :=
  ∀ k, r.1 = some k → k ≤ r.2.length ∧
    ∃ (sequences : List Sequence) (literals : List UInt8),
      (Block.mk sequences (some ⟨literals, 0⟩)).encode = r.2.take k ∧
      Strict input.length 0 sequences ∧ literals = input.drop (endOf 0 sequences) ∧
      min input.length 5 ≤ literals.length

theorem compressTurn_strict {s : Encoder} (hs : StrictlyEmitted input s) :
    (∃ s', compressTurn input s = .done (.next s') ∧ StrictlyEmitted input s' ∧ s.i < s'.i) ∨
    (∃ r, compressTurn input s = .done (.exit r) ∧ StrictlyPacks input r) := by
  obtain ⟨sequences, rest, houtput, hpos, hstrict, hend⟩ := hs.emitted
  have hanchored := hs.anchored
  have hinside := hs.inside
  rcases compressTurn_cases s with ⟨-, hrun⟩ | ⟨hroom, tables, hrun⟩ |
    ⟨hroom, tables, candidate, matchLen, hrep, hrun⟩
  · -- the closing literals
    rcases writeClosing_writes houtput hpos (hanchored.trans hinside) with
      ⟨output, hclosing⟩ | ⟨rest', hclosing⟩
    · exact Or.inr ⟨_, by rw [hrun, hclosing]; rfl, by simp [StrictlyPacks]⟩
    · refine Or.inr ⟨_, by rw [hrun, hclosing]; rfl, ?_⟩
      intro k hk
      obtain rfl := Option.some.inj hk
      refine ⟨(List.prefix_append _ _).length_le, sequences, input.drop s.anchor, ?_, hstrict,
        by rw [hend], ?_⟩
      · rw [List.take_left]
        rfl
      · have hlast := hs.last
        rw [List.length_drop]
        omega
  · -- a byte that becomes a literal
    exact Or.inl ⟨_, hrun, ⟨Nat.le_succ_of_le hanchored, by simp only; omega, hs.last, hs.emitted⟩,
      Nat.lt_succ_self _⟩
  · -- a match
    rw [hrun]
    rcases emitMatch_writes houtput hpos hanchored (by omega) hrep tables with
      ⟨start, pos, length, hrep', tables', rest', hemit, hanchor, hle, hsame⟩ | ⟨output, hexit⟩
    · have hlimit := hrep'.inside
      have hlong := hrep.long
      unfold lz4MinMatch at hlong
      have hliterals := hrep'.literals_end hanchor (by omega)
      refine Or.inl ⟨_, hemit, ⟨Nat.le_refl _, by simp only; omega,
        Or.inr (by simp only; omega), ?_⟩, by simp only; omega⟩
      refine ⟨sequences ++ [hrep'.sequence s.anchor], rest', by simp, by simp, ?_, ?_⟩
      · have hsequence := hrep'.strict hanchor (by omega)
        rw [← hend] at hsequence ⊢
        exact hstrict.append hsequence
      · rw [endOf_append, hend, hliterals]
        rfl
    · exact Or.inr ⟨_, hexit, by simp [StrictlyPacks]⟩

/-- **Compressed blocks keep the rules for strict decoders.** The compressor never
    panics, and what it has written when it succeeds is a block of match sequences
    and one closing literal run: every match has a length of at least four and an
    offset from 1 to 65535 that does not reach before the block, starts twelve
    bytes before the end or earlier, and the last five bytes are closing literals. -/
theorem lz4CompressBlock_strict (input output : List UInt8) (hinput : input ≠ []) :
    ∃ result output', lz4CompressBlock input output = .done (result, output') ∧
      ∀ k, result = some k → k ≤ output'.length ∧
        ∃ (sequences : List Sequence) (literals : List UInt8),
          (Block.mk sequences (some ⟨literals, 0⟩)).encode = output'.take k ∧
          Strict input.length 0 sequences ∧ literals = input.drop (endOf 0 sequences) ∧
          min input.length 5 ≤ literals.length ∧ (input.length < 13 → sequences = []) := by
  have hlength : input.length ≠ 0 := mt List.length_eq_zero_iff.mp hinput
  obtain ⟨⟨result, output'⟩, hrun, hpacks⟩ := loop_spec (compressTurn input)
    (StrictlyEmitted input) (fun s => input.length - s.i) (fun _ r => StrictlyPacks input r)
    (fun s hs => by
      rcases compressTurn_strict hs with ⟨s', hrun, hs', hlt⟩ | hexit
      · have hinside := hs'.inside
        exact Or.inl ⟨s', hrun, hs', by omega, fun _ h => h⟩
      · exact Or.inr hexit)
    (input.length + 1) ⟨Tables.fresh, 0, 0, 0, output⟩
    ⟨Nat.le_refl _, Nat.zero_le _, Or.inl rfl, [], output, rfl, rfl, trivial, rfl⟩
    (by simp only; omega)
  refine ⟨result, output', by rw [lz4CompressBlock, if_neg hlength, hrun], ?_⟩
  intro k hk
  obtain ⟨hle, sequences, literals, hencode, hstrict, hliterals, hlast⟩ := hpacks k hk
  exact ⟨hle, sequences, literals, hencode, hstrict, hliterals, hlast, hstrict.eq_nil⟩

/-- A match of fourteen bytes between two literals and five closing ones. -/
theorem lz4CompressBlock_strict_match :
    let input : List UInt8 := 9 :: List.replicate 20 7
    let output : List UInt8 := [42, 9, 7, 1, 0, 80, 7, 7, 7, 7, 7]
    lz4CompressBlock input (List.replicate 11 0) = .done (some 11, output) ∧
      ∃ (sequences : List Sequence) (literals : List UInt8), sequences ≠ [] ∧
        (Block.mk sequences (some ⟨literals, 0⟩)).encode = output ∧
        Strict input.length 0 sequences ∧ literals = input.drop (endOf 0 sequences) := by
  intro input output
  have hblock : lz4CompressBlock input (List.replicate 11 0) = .done (some 11, output) := by
    decide +kernel
  obtain ⟨result, output', hrun, hall⟩ :=
    lz4CompressBlock_strict input (List.replicate 11 0) (List.cons_ne_nil _ _)
  cases hblock.symm.trans hrun
  obtain ⟨-, sequences, literals, hencode, hstrict, hliterals, -⟩ := hall 11 rfl
  refine ⟨hblock, sequences, literals, ?_, hencode, hstrict, hliterals⟩
  rintro rfl
  rw [hliterals] at hencode
  exact absurd hencode (by decide +kernel)

end Encoder

end ImgTools.Lz4
