import ImgTools.Lz4DecoderTurn

/-!
# The LZ4 decoder against the block format

A run of the decoder yields `Some` exactly on the encodings of blocks whose
expansion is defined and fits the buffer, and then the buffer holds the
expansion (`lz4DecompressBlockWithPrefix_correct`). The relation `Meets` says
this of a run from any point of the input; one turn preserves it, so it holds
of the whole run.
-/

namespace ImgTools.Lz4

open Exec

/-- The run over `bytes` with the buffer `window ++ tail` ends as the format says. -/
structure Meets (bytes window tail : List UInt8) (r : Decoded) : Prop where
  complete : ∀ (b : Block) out, b.encode = bytes → b.expand window = some out →
    out.length ≤ window.length + tail.length →
    r = (some out.length, out ++ tail.drop (out.length - window.length))
  sound : ∀ d, r.1 = some d → ∃ (b : Block) (out : List UInt8), b.encode = bytes ∧
    b.expand window = some out ∧ out.length = d ∧ d ≤ window.length + tail.length
  kept : window <+: r.2
  size : r.2.length = window.length + tail.length

theorem meets_end (window tail : List UInt8) :
    Meets [] window tail (some window.length, window ++ tail) where
  complete := by
    intro b out hb hout _
    rw [Block.eq_empty_of_encode hb] at hout
    have heq : out = window := by simpa [Block.expand] using hout.symm
    simp [heq]
  sound := by
    intro d hd
    simp only [Option.some.injEq] at hd
    exact ⟨⟨[], none⟩, window, rfl, by simp [Block.expand], hd, by omega⟩
  kept := List.prefix_append _ _
  size := List.length_append

theorem meets_closing {window tail : List UInt8} (c : Closing)
    (hroom : c.literals.length ≤ tail.length) :
    Meets c.encode window tail (some (window.length + c.literals.length),
      window ++ c.literals ++ tail.drop c.literals.length) where
  complete := by
    intro b out hb hout _
    rcases Block.head_of_readPiece (hb ▸ readPiece_closing c) with
      ⟨c', hc, rfl⟩ | ⟨s, rest, sequences, hpiece, -⟩
    · obtain rfl : c = c' := by simpa using hc
      have heq : out = window ++ c.literals := by simpa [Block.expand] using hout.symm
      simp [heq]
    · simp at hpiece
  sound := by
    intro d hd
    simp only [Option.some.injEq] at hd
    exact ⟨⟨[], some c⟩, window ++ c.literals, rfl, by simp [Block.expand],
      by rw [List.length_append, hd], by omega⟩
  kept := by
    rw [List.append_assoc]
    exact List.prefix_append _ _
  size := by
    simp only [List.length_append, List.length_drop]
    omega

/-- A sequence in front of a run that ends as the format says. -/
theorem Meets.cons {rest window grown tail : List UInt8} {r : Decoded} {s : Sequence}
    (hstep : s.step.apply window = some grown)
    (hroom : grown.length ≤ window.length + tail.length)
    (h : Meets rest grown (tail.drop (grown.length - window.length)) r) :
    Meets (s.encode ++ rest) window tail r := by
  obtain ⟨hhistory, -⟩ := Lz77.Step.apply_grows hstep
  have hle := hhistory.length_le
  have hsum : grown.length + (tail.drop (grown.length - window.length)).length =
      window.length + tail.length := by
    rw [List.length_drop]
    omega
  constructor
  · intro b out hb hout hfit
    rcases Block.head_of_readPiece (hb ▸ readPiece_sequence s rest) with
      ⟨c, hpiece, -⟩ | ⟨s', rest', sequences, hpiece, heq, hrest⟩
    · simp at hpiece
    · simp only [Piece.sequence.injEq] at hpiece
      obtain ⟨rfl, rfl⟩ := hpiece
      rw [heq, Block.expand_cons, hstep, Option.bind_some] at hout
      have hgrow := (Block.prefix_expand hout).length_le
      rw [h.complete _ out hrest.symm hout (by omega), List.drop_drop]
      congr 3
      omega
  · intro d hd
    obtain ⟨b, out, hb, hout, hlen, hfit⟩ := h.sound d hd
    refine ⟨⟨s :: b.sequences, b.closing⟩, out, ?_, ?_, hlen, by omega⟩
    · rw [Block.encode_cons, hb]
    · rw [Block.expand_cons, hstep, Option.bind_some, hout]
  · exact hhistory.trans h.kept
  · rw [h.size, hsum]

/-- A failure is what the format says when no piece can be followed. -/
theorem meets_none {bytes window tail rest : List UInt8} (inputLen : Nat)
    (hlen : rest.length = tail.length) (hne : bytes ≠ [])
    (hnone : (readPiece bytes).bind (Piece.turn inputLen window tail) = none) :
    Meets bytes window tail (none, window ++ rest) where
  complete := by
    intro b out hb hout hfit
    exfalso
    obtain ⟨piece, hpiece⟩ := Block.readPiece_isSome (hb ▸ hne)
    rw [← hb, hpiece, Option.bind_some] at hnone
    rcases Block.head_of_readPiece hpiece with ⟨c, rfl, rfl⟩ | ⟨s, rest', sequences, rfl, heq, -⟩
    · have heq : out = window ++ c.literals := by simpa [Block.expand] using hout.symm
      rw [heq, List.length_append] at hfit
      simp [Piece.turn, show c.literals.length ≤ tail.length by omega] at hnone
    · rw [heq, Block.expand_cons] at hout
      obtain ⟨grown, hstep, hrest⟩ := Option.bind_eq_some_iff.mp hout
      have hgrow := (Block.prefix_expand hrest).length_le
      rw [Piece.turn, hstep, Option.bind_some, if_pos (by omega)] at hnone
      simp at hnone
  sound := by
    intro d hd
    simp at hd
  kept := List.prefix_append _ _
  size := by rw [List.length_append, hlen]

/-- A run that goes on behind a sequence, from the end of the buffer's window. -/
theorem meets_sequence {input window tail grown rest : List UInt8} {sp : Nat} {s : Sequence}
    (hbytes : input.drop sp = s.encode ++ rest) (hstep : s.step.apply window = some grown)
    (hroom : grown.length ≤ window.length + tail.length) {output : List UInt8}
    (houtput : output = grown ++ tail.drop (grown.length - window.length)) :
    (grown.length ≤ output.length ∧ output.length = window.length + tail.length) ∧
      (input.drop (input.length - rest.length)).length < (input.drop sp).length ∧
      ∀ r, Meets (input.drop (input.length - rest.length)) (output.take grown.length)
        (output.drop grown.length) r → Meets (input.drop sp) window tail r := by
  have hsuffix : rest <:+ input :=
    (hbytes ▸ List.suffix_append s.encode rest).trans (List.drop_suffix sp input)
  have hdrop : input.drop (input.length - rest.length) = rest :=
    (List.suffix_iff_eq_drop.mp hsuffix).symm
  have hhistory := (Lz77.Step.apply_grows hstep).1.length_le
  rw [hdrop, hbytes, houtput, List.take_left, List.drop_left]
  refine ⟨⟨?_, ?_⟩, ?_, fun r hr => hr.cons hstep hroom⟩
  · rw [List.length_append]
    omega
  · rw [List.length_append, List.length_drop]
    omega
  · simp only [List.length_append, Sequence.encode, List.length_cons]
    omega

/-- What one turn of the decoder does to the relation. -/
theorem decodeTurn_meets {A : Arith} {input : List UInt8} {cap : Nat}
    (hfits : NoOverflow A input cap) {c : Cursor} (hdp : c.dp ≤ c.output.length)
    (hcap : c.output.length = cap) :
    (∃ c', decodeTurn A input c = .done (.next c') ∧
      (c'.dp ≤ c'.output.length ∧ c'.output.length = cap) ∧
      (input.drop c'.sp).length < (input.drop c.sp).length ∧
      ∀ r, Meets (input.drop c'.sp) (c'.output.take c'.dp) (c'.output.drop c'.dp) r →
        Meets (input.drop c.sp) (c.output.take c.dp) (c.output.drop c.dp) r) ∨
    (∃ r, decodeTurn A input c = .done (.exit r) ∧
      Meets (input.drop c.sp) (c.output.take c.dp) (c.output.drop c.dp) r) := by
  obtain ⟨sp, dp, output⟩ := c
  simp only at hdp hcap ⊢
  obtain ⟨window, tail, rfl, rfl⟩ :
      ∃ window tail, output = window ++ tail ∧ window.length = dp :=
    ⟨output.take dp, output.drop dp, (List.take_append_drop _ _).symm,
      by rw [List.length_take]; omega⟩
  rw [List.length_append] at hcap
  subst hcap
  rw [List.take_left, List.drop_left]
  by_cases hend : input.drop sp = []
  · right
    rw [hend]
    exact ⟨_, decodeTurn_end hend, meets_end window tail⟩
  have hturn := decodeTurn_spec hfits hend
  match hstep : (readPiece (input.drop sp)).bind (Piece.turn input.length window tail) with
  | none =>
    rw [hstep] at hturn
    obtain ⟨rest, hlen, hrun⟩ := hturn
    exact Or.inr ⟨_, hrun, meets_none input.length hlen hend hstep⟩
  | some turn =>
    rw [hstep] at hturn
    obtain ⟨piece, hpiece, hpieceTurn⟩ := Option.bind_eq_some_iff.mp hstep
    rcases readPiece_eq_some hpiece with ⟨c, rfl, hbytes⟩ | ⟨s, rest, rfl, hbytes⟩
    · right
      rw [Piece.turn, Option.ite_none_right_eq_some] at hpieceTurn
      obtain ⟨hroom, hexit⟩ := hpieceTurn
      rw [hbytes]
      exact ⟨_, by rw [hturn, ← Option.some.inj hexit], meets_closing c hroom⟩
    · left
      obtain ⟨grown, happly, hfit⟩ := Option.bind_eq_some_iff.mp hpieceTurn
      rw [Option.ite_none_right_eq_some] at hfit
      obtain ⟨hroom, hnext⟩ := hfit
      exact ⟨_, by rw [hturn, ← Option.some.inj hnext], meets_sequence hbytes happly hroom rfl⟩

/-- The main loop ends, and ends as the format says. -/
theorem decodeLoop_meets {A : Arith} {input dst : List UInt8} {prefixLen : Nat}
    (hhistory : prefixLen ≤ dst.length) (hfits : NoOverflow A input dst.length) :
    ∃ r, loop (decodeTurn A input) (input.length + 1) ⟨0, prefixLen, dst⟩ = .done r ∧
      Meets input (dst.take prefixLen) (dst.drop prefixLen) r :=
  loop_spec (decodeTurn A input) (fun c => c.dp ≤ c.output.length ∧ c.output.length = dst.length)
    (fun c => (input.drop c.sp).length)
    (fun c r => Meets (input.drop c.sp) (c.output.take c.dp) (c.output.drop c.dp) r)
    (fun c hc => decodeTurn_meets hfits hc.1 hc.2) (input.length + 1) ⟨0, prefixLen, dst⟩
    ⟨hhistory, rfl⟩ (by simp)

/-- The count of bytes written, from the position the main loop ends with. -/
theorem lz4DecompressBlockWithPrefix_eq {A : Arith} {input dst : List UInt8} {prefixLen : Nat}
    {r : Decoded}
    (hrun : loop (decodeTurn A input) (input.length + 1) ⟨0, prefixLen, dst⟩ = .done r)
    (hpos : ∀ d, r.1 = some d → prefixLen ≤ d ∧ A.Fits d) :
    lz4DecompressBlockWithPrefix A input dst prefixLen =
      .done (r.1.map (· - prefixLen), r.2) := by
  obtain ⟨final, dst'⟩ := r
  rw [lz4DecompressBlockWithPrefix, hrun, Outcome.done_bind]
  match final, hpos with
  | none, _ => rfl
  | some d, hpos =>
    obtain ⟨hle, hfit⟩ := hpos d rfl
    simp only [Arith.sub_of_le hfit hle, Outcome.done_bind, Outcome.pure_eq, Option.map_some]

/-- A position the main loop ends with lies between the prefix and the end of the buffer. -/
theorem Meets.position {input dst : List UInt8} {prefixLen : Nat} {r : Decoded}
    (hhistory : prefixLen ≤ dst.length)
    (h : Meets input (dst.take prefixLen) (dst.drop prefixLen) r) {d : Nat} (hd : r.1 = some d) :
    prefixLen ≤ d ∧ d ≤ dst.length := by
  obtain ⟨b, out, -, hout, hlen, hfit⟩ := h.sound d hd
  have hgrow := (Block.prefix_expand hout).length_le
  rw [List.length_take] at hgrow hfit
  rw [List.length_drop] at hfit
  omega

/-- **The whole run** ends as the format says. -/
theorem lz4DecompressBlockWithPrefix_meets {A : Arith} {input dst : List UInt8} {prefixLen : Nat}
    (hhistory : prefixLen ≤ dst.length) (hfits : NoOverflow A input dst.length) :
    ∃ r, lz4DecompressBlockWithPrefix A input dst prefixLen =
        .done (r.1.map (· - prefixLen), r.2) ∧
      Meets input (dst.take prefixLen) (dst.drop prefixLen) r := by
  obtain ⟨r, hrun, hmeets⟩ := decodeLoop_meets hhistory hfits
  refine ⟨r, lz4DecompressBlockWithPrefix_eq hrun fun d hd => ?_, hmeets⟩
  obtain ⟨hle, hfit⟩ := hmeets.position hhistory hd
  exact ⟨hle, hfits.mono (by omega)⟩

/-- A block whose expansion fits the buffer is decoded to it. -/
theorem lz4DecompressBlockWithPrefix_expand {A : Arith} {b : Block} {out dst : List UInt8}
    {prefixLen : Nat} (hhistory : prefixLen ≤ dst.length) (hfits : NoOverflow A b.encode dst.length)
    (hout : b.expand (dst.take prefixLen) = some out) (hroom : out.length ≤ dst.length) :
    lz4DecompressBlockWithPrefix A b.encode dst prefixLen =
      .done (some (out.length - prefixLen), out ++ dst.drop out.length) := by
  obtain ⟨r, hrun, hmeets⟩ := lz4DecompressBlockWithPrefix_meets hhistory hfits
  have hgrow := (Block.prefix_expand hout).length_le
  have hwindow : (dst.take prefixLen).length = prefixLen := by
    rw [List.length_take]
    omega
  have hr := hmeets.complete b out rfl hout (by rw [hwindow, List.length_drop]; omega)
  have hskip : prefixLen + (out.length - prefixLen) = out.length := by omega
  rw [hwindow, List.drop_drop, hskip] at hr
  rw [hrun, hr, Option.map_some]

/-- **The decoder implements the block format.** -/
theorem lz4DecompressBlockWithPrefix_correct (A : Arith) (input dst : List UInt8)
    (prefixLen : Nat) (hhistory : prefixLen ≤ dst.length)
    (hfits : NoOverflow A input dst.length) :
    ∃ result dst', lz4DecompressBlockWithPrefix A input dst prefixLen = .done (result, dst') ∧
      (∀ w, result = some w ↔ ∃ (b : Block) (out : List UInt8), b.encode = input ∧
        b.expand (dst.take prefixLen) = some out ∧ out.length = prefixLen + w ∧
        prefixLen + w ≤ dst.length) ∧
      (∀ (b : Block) out, b.encode = input → b.expand (dst.take prefixLen) = some out →
        out.length ≤ dst.length → dst' = out ++ dst.drop out.length) ∧
      dst'.take prefixLen = dst.take prefixLen ∧ dst'.length = dst.length := by
  obtain ⟨⟨final, dst'⟩, hdone, hmeets⟩ := lz4DecompressBlockWithPrefix_meets hhistory hfits
  have hwindow : (dst.take prefixLen).length = prefixLen := by
    rw [List.length_take]
    omega
  have hsize : (dst.take prefixLen).length + (dst.drop prefixLen).length = dst.length := by
    rw [List.length_take, List.length_drop]
    omega
  have hkept : dst'.take prefixLen = dst.take prefixLen := by
    have htake := List.prefix_iff_eq_take.mp hmeets.kept
    rw [hwindow] at htake
    exact htake.symm
  have hresult : ∀ w, final.map (· - prefixLen) = some w ↔ final = some (prefixLen + w) := by
    intro w
    match final, hmeets with
    | none, _ => simp
    | some d, hmeets =>
      obtain ⟨hle, -⟩ := hmeets.position hhistory rfl
      simp only [Option.map_some, Option.some.injEq]
      omega
  refine ⟨_, dst', hdone, ?_, ?_, hkept, hmeets.size.trans hsize⟩
  · intro w
    rw [hresult]
    constructor
    · intro hfinal
      obtain ⟨b, out, hb, hout, hlen, hfit⟩ := hmeets.sound _ hfinal
      exact ⟨b, out, hb, hout, hlen, by omega⟩
    · rintro ⟨b, out, hb, hout, hlen, hfit⟩
      have hcomplete := hmeets.complete b out hb hout (by omega)
      rw [← hlen]
      exact congrArg Prod.fst hcomplete
  · rintro b out rfl hout hfit
    have hexpand := lz4DecompressBlockWithPrefix_expand hhistory hfits hout hfit
    exact congrArg Prod.snd (Outcome.done.inj (hdone.symm.trans hexpand))

/-- The decoder on a history of two bytes and a match that overlaps itself. -/
theorem lz4DecompressBlockWithPrefix_correct_overlap :
    ∃ result dst', lz4DecompressBlockWithPrefix (.wrapping 32) [0x12, 9, 3, 0]
        [1, 2, 0, 0, 0, 0, 0, 0, 0, 0] 2 = .done (result, dst') ∧
      (∀ w, result = some w ↔ ∃ (b : Block) (out : List UInt8), b.encode = [0x12, 9, 3, 0] ∧
        b.expand [1, 2] = some out ∧ out.length = 2 + w ∧ 2 + w ≤ 10) ∧
      (∀ (b : Block) out, b.encode = [0x12, 9, 3, 0] → b.expand [1, 2] = some out →
        out.length ≤ 10 → dst' = out ++ [1, 2, 0, 0, 0, 0, 0, 0, 0, 0].drop out.length) ∧
      dst'.take 2 = [1, 2] ∧ dst'.length = 10 :=
  lz4DecompressBlockWithPrefix_correct (.wrapping 32) [0x12, 9, 3, 0]
    [1, 2, 0, 0, 0, 0, 0, 0, 0, 0] 2 (by decide) (by decide)

end ImgTools.Lz4
