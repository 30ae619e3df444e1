import ImgTools.Lz4DecoderCorrect
import ImgTools.Lz4Size

/-!
# The buffer that a block needs

`imageforge_lz4_block_max_size` bounds the output of a block whatever the block
holds. A buffer of that size behind the window therefore fails on a block only if
every buffer does, and holds what a larger one would.
-/

namespace ImgTools.Lz4

open Exec

def imageforgeLz4BlockMaxSize (bits srcLen : Nat) : Nat :=
  saturatingAdd bits (saturatingMul bits srcLen 255) 16

/-- A count of bytes that is a `usize` and within the bound of the format. -/
theorem le_imageforgeLz4BlockMaxSize {bits srcLen written : Nat} (hword : written < 2 ^ bits)
    (hle : written ≤ 255 * srcLen) : written ≤ imageforgeLz4BlockMaxSize bits srcLen := by
  unfold imageforgeLz4BlockMaxSize saturatingAdd saturatingMul
  omega

section Run

variable {A : Arith} {input dst full : List UInt8} {prefixLen : Nat} {r : Decoded}

/-- What a run that yields a position has appended to the window. -/
theorem Meets.written_le (hhistory : prefixLen ≤ dst.length)
    (h : Meets input (dst.take prefixLen) (dst.drop prefixLen) r) {d : Nat} (hd : r.1 = some d) :
    d - prefixLen ≤ 255 * input.length := by
  obtain ⟨b, out, rfl, hout, rfl, -⟩ := h.sound d hd
  have hsize := Block.expand_length_le hout
  rw [List.length_take] at hsize
  omega

/-- A block that one buffer has room for is decoded alike into another that has room for it. -/
theorem Meets.transfer (hsame : full.take prefixLen = dst.take prefixLen)
    (h : Meets input (dst.take prefixLen) (dst.drop prefixLen) r) {d : Nat} (hd : r.1 = some d)
    (hroom : d ≤ full.length) {r' : Decoded}
    (h' : Meets input (full.take prefixLen) (full.drop prefixLen) r') :
    r'.1 = some d ∧ r.2.take d = r'.2.take d := by
  obtain ⟨b, out, hb, hout, rfl, hfit⟩ := h.sound d hd
  have hsize : (full.take prefixLen).length + (full.drop prefixLen).length = full.length := by
    rw [← List.length_append, List.take_append_drop]
  have hrun := h.complete b out hb hout hfit
  have hrun' := h'.complete b out hb (by rw [hsame, hout]) (by omega)
  rw [hrun, hrun', List.take_left, List.take_left]
  exact ⟨rfl, rfl⟩

end Run

/-- **The bound on the decoded size.** Into whatever buffer a block is decoded, the
    bytes written are at most 255 times those of the block. A buffer of the bound
    behind the same window fails only if the first one does, and if it is no larger
    than the first one, both end alike and with the same bytes. -/
theorem lz4DecompressBlockWithPrefix_maxSize (A : Arith) (bits : Nat) (input dst : List UInt8)
    (prefixLen : Nat) (hhistory : prefixLen ≤ dst.length) (hword : dst.length < 2 ^ bits)
    (hfits : NoOverflow A input dst.length) :
    ∃ result dst', lz4DecompressBlockWithPrefix A input dst prefixLen = .done (result, dst') ∧
      (∀ w, result = some w →
        w ≤ 255 * input.length ∧ w ≤ imageforgeLz4BlockMaxSize bits input.length) ∧
      ∀ full : List UInt8, full.length = prefixLen + imageforgeLz4BlockMaxSize bits input.length →
        full.take prefixLen = dst.take prefixLen → NoOverflow A input full.length →
        ∃ result' full', lz4DecompressBlockWithPrefix A input full prefixLen =
            .done (result', full') ∧
          (result' = none → result = none) ∧
          (full.length ≤ dst.length → result' = result ∧
            ∀ w, result = some w → dst'.take (prefixLen + w) = full'.take (prefixLen + w)) := by
  obtain ⟨⟨final, dst'⟩, hrun, hmeets⟩ := lz4DecompressBlockWithPrefix_meets hhistory hfits
  have hbound : ∀ d, final = some d → prefixLen ≤ d ∧ d ≤ dst.length ∧
      d - prefixLen ≤ 255 * input.length ∧
      d - prefixLen ≤ imageforgeLz4BlockMaxSize bits input.length := by
    intro d hd
    obtain ⟨hle, hfit⟩ := hmeets.position hhistory hd
    have hwritten := hmeets.written_le hhistory hd
    exact ⟨hle, hfit, hwritten, le_imageforgeLz4BlockMaxSize (by omega) hwritten⟩
  refine ⟨_, _, hrun, ?_, ?_⟩
  · intro w hw
    obtain ⟨d, hd, rfl⟩ := Option.map_eq_some_iff.mp hw
    obtain ⟨-, -, hwritten, hmax⟩ := hbound d hd
    exact ⟨hwritten, hmax⟩
  intro full hlength hsame hfits'
  obtain ⟨⟨final', full'⟩, hrun', hmeets'⟩ :=
    lz4DecompressBlockWithPrefix_meets (show prefixLen ≤ full.length by omega) hfits'
  -- what one buffer holds, the other holds too where it has room
  have hback : ∀ d, final = some d → final' = some d ∧ dst'.take d = full'.take d := by
    intro d hd
    obtain ⟨-, -, -, hmax⟩ := hbound d hd
    exact hmeets.transfer hsame hd (by omega) hmeets'
  refine ⟨_, _, hrun', ?_, ?_⟩
  · intro hnone
    rcases hfinal : final with _ | d
    · rfl
    · rw [(hback d hfinal).1] at hnone
      cases hnone
  · intro hlarger
    rcases hfinal : final with _ | d
    · rcases hfinal' : final' with _ | d'
      · exact ⟨rfl, by intro w hw; cases hw⟩
      · obtain ⟨-, hfit⟩ := hmeets'.position (by omega) hfinal'
        have hforth := hmeets'.transfer hsame.symm hfinal' (by omega) hmeets
        cases hfinal.symm.trans hforth.1
    · obtain ⟨hsame', hbytes⟩ := hback d hfinal
      obtain ⟨hle, -⟩ := hbound d hfinal
      rw [hsame']
      refine ⟨rfl, ?_⟩
      rintro w ⟨⟩
      rw [Nat.add_sub_cancel' hle]
      exact hbytes

/-- A history of two bytes and a match that overlaps itself, of a block of four bytes. -/
theorem lz4DecompressBlockWithPrefix_maxSize_overlap :
    ∃ result dst', lz4DecompressBlockWithPrefix (.wrapping 32) [0x12, 9, 3, 0]
        [1, 2, 0, 0, 0, 0, 0, 0, 0, 0] 2 = .done (result, dst') ∧
      (∀ w, result = some w → w ≤ 255 * 4 ∧ w ≤ imageforgeLz4BlockMaxSize 32 4) ∧
      ∀ full : List UInt8, full.length = 2 + imageforgeLz4BlockMaxSize 32 4 →
        full.take 2 = [1, 2] → NoOverflow (.wrapping 32) [0x12, 9, 3, 0] full.length →
        ∃ result' full', lz4DecompressBlockWithPrefix (.wrapping 32) [0x12, 9, 3, 0] full 2 =
            .done (result', full') ∧
          (result' = none → result = none) ∧
          (full.length ≤ 10 → result' = result ∧
            ∀ w, result = some w → dst'.take (2 + w) = full'.take (2 + w)) :=
  lz4DecompressBlockWithPrefix_maxSize (.wrapping 32) 32 [0x12, 9, 3, 0]
    [1, 2, 0, 0, 0, 0, 0, 0, 0, 0] 2 (by decide) (by decide) (by decide)

end ImgTools.Lz4
