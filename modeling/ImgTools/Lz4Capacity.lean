import ImgTools.Lz4RoundTrip
import ImgTools.Lz4Size

/-!
# The capacity that the compressor needs

What the compressor writes depends on its input alone: the tables choose the
matches, and nothing that has been written is read again. Every room check is
exact, so the compressor fails if and only if the destination is shorter than the
block, and the block is no longer than the usual worst case of the format.
-/

namespace ImgTools.Lz4

open Exec

/-- The main loop appends bytes that depend on the tables and the position only. -/
theorem compressLoop_writesIn (input : List UInt8) :
    ∀ (budget : Nat) (tables : Tables) (anchor i : Nat),
    anchor ≤ i → i ≤ input.length → input.length - i < budget →
    ∃ bytes : List UInt8, ∀ written rest, WritesIn bytes written rest
      (loop (compressTurn input) budget ⟨tables, written.length, anchor, i, written ++ rest⟩) := by
  intro budget
  induction budget with
  | zero =>
    intro tables anchor i _ _ hbudget
    omega
  | succ budget ih =>
    intro tables anchor i hanchor hinside hbudget
    rcases compressTurn_uniform tables anchor i with ⟨-, hturn⟩ | ⟨hroom, tables', hturn⟩ |
      ⟨hroom, tables', candidate, matchLen, hrep, hturn⟩
    · -- the closing literals
      refine ⟨(Closing.mk (input.drop anchor) 0).encode, fun written rest => ?_⟩
      obtain ⟨hfits, hfails⟩ :=
        writeClosing_writesIn (hanchor.trans hinside) tables i written rest
      constructor
      · intro hle
        refine loop_exit budget ?_
        rw [hturn, hfits hle]
        rfl
      · intro hlt
        obtain ⟨output, hrun, hlength⟩ := hfails hlt
        refine ⟨output, loop_exit budget ?_, hlength⟩
        rw [hturn, hrun]
        rfl
    · -- a byte that becomes a literal
      obtain ⟨bytes, hbytes⟩ := ih tables' anchor (i + 1) (by omega) (by omega) (by omega)
      refine ⟨bytes, fun written rest => ?_⟩
      rw [loop_next budget (hturn _ _)]
      exact hbytes written rest
    · -- a match
      obtain ⟨start, pos, length, hrep', tables'', ⟨-, -, hend⟩, hwrites⟩ :=
        emitMatch_writesIn hanchor (by omega) hrep tables'
      have hlong := hrep.long
      have hlimit := hrep'.inside
      unfold lz4MinMatch at hlong
      obtain ⟨bytes, hbytes⟩ :=
        ih tables'' (pos + length) (pos + length) (Nat.le_refl _) (by omega) (by omega)
      refine ⟨(hrep'.sequence anchor).encode ++ bytes, fun written rest => ?_⟩
      obtain ⟨run, hrun, hemit⟩ := hwrites tables written rest
      rw [loop_succ, hturn, hemit, bind_assoc]
      exact hrun.bind (fun _ => rfl) (hbytes _ _)

/-- **The capacity law.** For every input there is a block, within the worst-case
    size of the format, that the compressor writes into every destination that has
    room for it, leaving the rest alone; into a shorter destination it fails. -/
theorem lz4CompressBlock_capacity (input : List UInt8) :
    ∃ bytes : List UInt8, bytes.length ≤ input.length + input.length / 255 + 16 ∧
      ∀ output : List UInt8,
        (bytes.length ≤ output.length → lz4CompressBlock input output =
          .done (some bytes.length, bytes ++ output.drop bytes.length)) ∧
        (output.length < bytes.length → ∃ output',
          lz4CompressBlock input output = .done (none, output') ∧
            output'.length = output.length) := by
  obtain ⟨bytes, hbytes⟩ : ∃ bytes : List UInt8, ∀ output,
      WritesIn bytes [] output (lz4CompressBlock input output) := by
    by_cases hempty : input.length = 0
    · exact ⟨[], fun output => .nil (if_pos hempty)⟩
    · obtain ⟨bytes, hbytes⟩ := compressLoop_writesIn input (input.length + 1)
        Tables.fresh 0 0 (Nat.le_refl 0) (Nat.zero_le _) (Nat.lt_succ_of_le (Nat.sub_le _ _))
      refine ⟨bytes, fun output => ?_⟩
      rw [lz4CompressBlock, if_neg hempty]
      exact hbytes [] output
  refine ⟨bytes, ?_, fun output => ⟨(hbytes output).fits, ?_⟩⟩
  · -- written into a destination of its own length, the bytes are a block for the input
    have hfull := (hbytes bytes).fits (Nat.le_refl _)
    obtain ⟨r, hrun, hpacks⟩ := lz4CompressBlock_spec input bytes
    obtain rfl := Outcome.done.inj (hfull.symm.trans hrun)
    obtain ⟨-, b, hencode, hexpand⟩ := hpacks _ rfl
    have hsize := Block.encode_length_le hexpand
    rw [hencode, List.nil_append, List.drop_length, List.append_nil, List.take_length] at hsize
    rw [List.length_nil] at hsize
    omega
  · intro hshort
    obtain ⟨output', hrun, hlength⟩ := (hbytes output).fails hshort
    exact ⟨output', hrun, by rw [hlength, List.length_nil, Nat.zero_add]⟩

end ImgTools.Lz4
