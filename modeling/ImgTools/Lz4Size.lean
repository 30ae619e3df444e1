import ImgTools.Lz4Format

/-!
# The sizes of a block and of its output

A length takes one byte for each 255 it stands for, so the output of a block is at
most 255 times as long as the block. The other way round, a match stands for more
bytes than its token, offset and length bytes take, so only the length bytes of
the literals make a block longer than its output, by one byte in 255.
-/

namespace ImgTools.Lz4

theorem length_runs (n : Nat) : (runs n).length = (n + 240) / 255 := by
  unfold runs
  split
  · rw [List.length_nil]
    omega
  · rw [List.length_append, List.length_replicate, List.length_singleton]
    omega

theorem Sequence.length_encode (s : Sequence) :
    s.encode.length = 3 + (runs s.literals.length).length + s.literals.length +
      (runs (s.matchLen - 4)).length := by
  simp only [Sequence.encode, List.length_cons, List.length_append, LittleEndian.length_encode]
  omega

theorem Closing.length_encode (c : Closing) :
    c.encode.length = 1 + (runs c.literals.length).length + c.literals.length := by
  simp only [Closing.encode, List.length_cons, List.length_append]
  omega

/-- A sequence stands for at most 255 bytes for each of its own. -/
theorem Sequence.output_le (s : Sequence) :
    s.literals.length + s.matchLen ≤ 255 * s.encode.length := by
  have hliterals := length_runs s.literals.length
  have hmatch := length_runs (s.matchLen - 4)
  rw [s.length_encode]
  omega

/-- A sequence is longer than what it stands for by the length bytes of its literals at most. -/
theorem Sequence.encode_le (s : Sequence) :
    255 * s.encode.length ≤ 256 * (s.literals.length + s.matchLen) := by
  have hliterals := length_runs s.literals.length
  have hmatch := length_runs (s.matchLen - 4)
  have hmin := s.minMatch
  rw [s.length_encode]
  omega

theorem Closing.encode_le (c : Closing) :
    255 * c.encode.length ≤ 256 * c.literals.length + 495 := by
  have hliterals := length_runs c.literals.length
  rw [c.length_encode]
  omega

/-- What the sequences of a block add to the window, against the bytes they take. -/
theorem expand_size {sequences : List Sequence} {window grown : List UInt8}
    (h : Lz77.expand window (sequences.map Sequence.step) = some grown) :
    grown.length ≤ window.length + 255 * (sequences.flatMap Sequence.encode).length ∧
      255 * (sequences.flatMap Sequence.encode).length + 256 * window.length ≤
        256 * grown.length := by
  induction sequences generalizing window with
  | nil =>
    obtain rfl : window = grown := by simpa using h
    exact ⟨Nat.le_refl _, by simp⟩
  | cons s sequences ih =>
    rw [List.map_cons, Lz77.expand_cons] at h
    obtain ⟨middle, hstep, hrest⟩ := Option.bind_eq_some_iff.mp h
    obtain ⟨-, hlength⟩ := Lz77.Step.apply_grows hstep
    have hmiddle : middle.length = window.length + s.literals.length + s.matchLen := hlength
    obtain ⟨hout, hin⟩ := ih hrest
    have houtput := s.output_le
    have hencode := s.encode_le
    rw [List.flatMap_cons, List.length_append]
    omega

namespace Block

variable {b : Block} {history out : List UInt8}

/-- **The output of a block** is at most 255 times as long as the block. -/
theorem expand_length_le (h : b.expand history = some out) :
    out.length ≤ history.length + 255 * b.encode.length := by
  obtain ⟨window, hwindow, rfl⟩ := Option.map_eq_some_iff.mp h
  obtain ⟨hsize, -⟩ := expand_size hwindow
  rw [Block.encode, List.length_append, List.length_append]
  rcases b.closing with _ | c
  · simp only [Option.map_none, Option.getD_none, List.length_nil]
    omega
  · have hclosing := c.length_encode
    simp only [Option.map_some, Option.getD_some]
    omega

/-- **The length of a block** exceeds that of its output by one byte in 255, and by
    a constant. -/
theorem encode_length_le (h : b.expand history = some out) :
    b.encode.length ≤ (out.length - history.length) + (out.length - history.length) / 255 + 2 := by
  obtain ⟨window, hwindow, rfl⟩ := Option.map_eq_some_iff.mp h
  obtain ⟨-, hsize⟩ := expand_size hwindow
  have hgrows := (Lz77.expand_grows hwindow).length_le
  rw [Block.encode, List.length_append, List.length_append]
  rcases b.closing with _ | c
  · simp only [Option.map_none, Option.getD_none, List.length_nil]
    omega
  · have hclosing := c.encode_le
    simp only [Option.map_some, Option.getD_some]
    omega

end Block

end ImgTools.Lz4
