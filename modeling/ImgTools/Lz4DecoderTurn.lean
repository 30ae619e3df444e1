import ImgTools.Lz4Decoder

/-!
# One turn of the LZ4 decoder

What each part of a turn does, once for all arithmetics that do not panic: the
length loops compute `lengthField` up to the word, the copy loop computes
`Lz77.copyBack`, and a turn whose sums fit does what the format says
(`decodeTurn_spec`). Buffers are written `window ++ tail`, where `window` holds
the bytes before `dp`.
-/

namespace ImgTools.Lz4

open Exec

/-- The arithmetic can run the decoder on an input of `n` bytes and a buffer of
    `cap`: no sum panics, and positions in both buffers are exact. -/
structure Runs (A : Arith) (n cap : Nat) : Prop where
  quiet : A.Quiet (255 * n + max n cap + 19)
  fits : A.Fits (max n cap + 2)
  nibble : A.Fits 15

theorem runs_of_fits {A : Arith} {n cap : Nat} (h : A.Fits (255 * n + max n cap + 19)) :
    Runs A n cap where
  quiet := Arith.quiet_of_fits h
  fits := h.mono (by omega)
  nibble := h.mono (by omega)

/-! ### The length loops -/

theorem extension_add (sum : Nat) (bytes : List UInt8) :
    extension sum bytes = (extension 0 bytes).map fun r => (sum + r.1, r.2) := by
  induction bytes generalizing sum with
  | nil => rfl
  | cons b bs ih =>
    by_cases hb : b = 255
    · simp only [extension, if_pos hb, ih (sum + 255), ih (0 + 255), Option.map_map]
      congr 1
      funext r
      simp only [Function.comp_apply, Prod.mk.injEq, and_true]
      omega
    · simp [extension, if_neg hb]

theorem extension_norm (A : Arith) (sum : Nat) (bytes : List UInt8) :
    (extension (A.norm sum) bytes).map (fun r => (A.norm r.1, r.2)) =
      (extension sum bytes).map fun r => (A.norm r.1, r.2) := by
  rw [extension_add (A.norm sum), extension_add sum, Option.map_map, Option.map_map]
  congr 1
  funext r
  simp only [Function.comp_apply, Arith.norm_norm_add]

section Turn

variable {A : Arith} {input : List UInt8} {cap : Nat}

private def lengthResult (A : Arith) (input : List UInt8) (s : Nat × Nat) : Option (Nat × Nat) :=
  (extension s.2 (input.drop s.1)).map fun r => (s.1 + r.2, A.norm r.1)

private theorem lengthResult_eq (s : Nat × Nat) :
    lengthResult A input s =
      ((extension s.2 (input.drop s.1)).map fun r => (A.norm r.1, r.2)).map
        fun r => (s.1 + r.2, r.1) := by
  rw [lengthResult, Option.map_map]
  rfl

/-- A turn of a length loop either ends with its result or keeps it. -/
private theorem lengthTurn_spec (hruns : Runs A input.length cap) {s : Nat × Nat}
    (hsp : s.1 ≤ input.length) (hlen : s.2 ≤ 15 + 255 * s.1) :
    (∃ s', lengthTurn A input s = .done (.next s') ∧
      (s'.1 ≤ input.length ∧ s'.2 ≤ 15 + 255 * s'.1) ∧
      input.length - s'.1 < input.length - s.1 ∧
      lengthResult A input s' = lengthResult A input s) ∨
    lengthTurn A input s = .done (.exit (lengthResult A input s)) := by
  obtain ⟨sp, len⟩ := s
  simp only at hsp hlen
  by_cases hend : input.length ≤ sp
  · right
    have hnil : input.drop sp = [] := List.drop_eq_nil_of_le hend
    simp [lengthTurn, hend, lengthResult, hnil, extension]
  · have hlt : sp < input.length := by omega
    have hcons : input.drop sp = input[sp] :: input.drop (sp + 1) := List.drop_eq_getElem_cons hlt
    have hbyte := input[sp].toNat_lt
    have hsp1 : A.add sp 1 = .done (sp + 1) :=
      Arith.add_of_fits (hruns.fits.mono (by omega))
    have hsum : A.add len input[sp].toNat = .done (A.norm (len + input[sp].toNat)) :=
      hruns.quiet.add (by omega)
    have hbound : A.norm (len + 255) ≤ 15 + 255 * (sp + 1) :=
      (A.norm_le _).trans (by omega)
    have hmeasure : input.length - (sp + 1) < input.length - sp := by omega
    have hturn : lengthTurn A input (sp, len) =
        if input[sp] = 255 then .done (.next (sp + 1, A.norm (len + input[sp].toNat)))
        else .done (.exit (some (sp + 1, A.norm (len + input[sp].toNat)))) := by
      simp [lengthTurn, hend, index_of_lt hlt, hsp1, hsum, ite_not]
    by_cases h255 : input[sp] = 255
    · left
      refine ⟨(sp + 1, A.norm (len + 255)), ?_, ⟨hlt, hbound⟩, hmeasure, ?_⟩
      · rw [hturn, if_pos h255, h255]
        rfl
      · rw [lengthResult_eq, extension_norm]
        simp only [lengthResult, hcons, extension, h255, if_true, Option.map_map]
        congr 1
        funext r
        simp only [Function.comp_apply, Prod.mk.injEq, and_true]
        omega
    · right
      rw [hturn, if_neg h255]
      simp only [lengthResult, hcons, extension, if_neg h255, Option.map_some]

/-- The length loops compute `lengthField`, up to the word. -/
theorem readLength_eq (hruns : Runs A input.length cap) {start sp : Nat} (hstart : start ≤ 15)
    (hsp : sp ≤ input.length) :
    readLength A input start sp =
      .done ((lengthField start (input.drop sp)).map fun r => (sp + r.2, A.norm r.1)) := by
  unfold readLength lengthField
  by_cases h15 : start = 15
  · rw [if_pos h15, if_pos h15]
    exact loop_eq (lengthTurn A input) (fun s => s.1 ≤ input.length ∧ s.2 ≤ 15 + 255 * s.1)
      (fun s => input.length - s.1) (lengthResult A input)
      (fun s hs => lengthTurn_spec hruns hs.1 hs.2) (input.length + 1) (sp, start)
      ⟨hsp, by simp only; omega⟩ (by simp only; omega)
  · rw [if_neg h15, if_neg h15]
    simp [Arith.norm_of_fits (hruns.nibble.mono hstart)]

/-! ### The copy loop -/

/-- The copy loop appends to the window what the back-reference stands for. -/
private theorem copyMatch_from {window tail : List UInt8} {offset : Nat} (hpos : 1 ≤ offset)
    (hle : offset ≤ window.length) (hfits : A.Fits (window.length + tail.length)) :
    ∀ count i, i + count ≤ tail.length →
      copyMatch A window.length (window.length - offset) count i
          (Lz77.copyBack window offset i ++ tail.drop i) =
        .done (Lz77.copyBack window offset (i + count) ++ tail.drop (i + count)) := by
  intro count
  induction count with
  | zero => intro i _; rfl
  | succ count ih =>
    intro i hi
    have hlen := Lz77.length_copyBack hpos hle i
    have hback : window.length - offset + i < (Lz77.copyBack window offset i).length := by omega
    have hdrop : tail.drop i = tail[i] :: tail.drop (i + 1) := List.drop_eq_getElem_cons (by omega)
    have hsource : A.add (window.length - offset) i = .done (window.length - offset + i) :=
      Arith.add_of_fits (hfits.mono (by omega))
    have htarget : A.add window.length i = .done (window.length + i) :=
      Arith.add_of_fits (hfits.mono (by omega))
    have hindex : index (Lz77.copyBack window offset i ++ tail.drop i)
        (window.length - offset + i) =
          .done (Lz77.copyBack window offset i)[window.length - offset + i] := by
      rw [index_of_lt (by rw [List.length_append]; omega), List.getElem_append_left hback]
    have hgrown : (Lz77.copyBack window offset i ++ tail.drop i).set (window.length + i)
        (Lz77.copyBack window offset i)[window.length - offset + i] =
          Lz77.copyBack window offset (i + 1) ++ tail.drop (i + 1) := by
      have hpos' : (Lz77.copyBack window offset i).length - offset =
          window.length - offset + i := by omega
      rw [Lz77.copyBack, hpos', List.getElem?_eq_getElem hback, hdrop, ← hlen,
        List.set_append_right _ _ (Nat.le_refl _), Nat.sub_self, List.set_cons_zero]
      simp
    simp only [copyMatch, hsource, Outcome.done_bind, hindex, htarget]
    rw [store_of_lt _ (by simp only [List.length_append, List.length_drop, hlen]; omega),
      Outcome.done_bind, hgrown, ih (i + 1) (by omega)]
    congr 3 <;> omega

theorem copyMatch_eq {window tail : List UInt8} {offset count : Nat} (hpos : 1 ≤ offset)
    (hle : offset ≤ window.length) (hcount : count ≤ tail.length)
    (hfits : A.Fits (window.length + tail.length)) :
    copyMatch A window.length (window.length - offset) count 0 (window ++ tail) =
      .done (Lz77.copyBack window offset count ++ tail.drop count) := by
  have hrun := copyMatch_from hpos hle hfits count 0 (by omega)
  simpa using hrun

/-! ### The parts of a turn -/

theorem or_shiftLeft (first second : UInt8) :
    first.toNat ||| second.toNat <<< 8 = first.toNat + 256 * second.toNat := by
  have hlt : first.toNat < 2 ^ 8 := first.toNat_lt
  rw [Nat.or_comm, ← Nat.shiftLeft_add_eq_or_of_lt hlt, Nat.shiftLeft_eq]
  omega

theorem highNibble (t : UInt8) : (t >>> 4).toNat = t.toNat / 16 := by
  rw [UInt8.toNat_shiftRight, Nat.shiftRight_eq_div_pow]
  rfl

theorem lowNibble (t : UInt8) : (t &&& 0x0f).toNat = t.toNat % 16 := by
  rw [UInt8.toNat_and]
  exact Nat.and_two_pow_sub_one_eq_mod t.toNat 4

theorem decodeMatch_spec {window tail : List UInt8} {offset sp matchLen : Nat}
    (hpos : 1 ≤ offset) (hle : offset ≤ window.length)
    (hfits : A.Fits (window.length + matchLen + 4)) (hbuf : A.Fits (window.length + tail.length)) :
    decodeMatch A offset sp matchLen window.length (window ++ tail) =
      if matchLen + 4 ≤ tail.length then
        .done (.next ⟨sp, window.length + (matchLen + 4),
          Lz77.copyBack window offset (matchLen + 4) ++ tail.drop (matchLen + 4)⟩)
      else .done (.exit (none, window ++ tail)) := by
  have hadd : A.add matchLen 4 = .done (matchLen + 4) :=
    Arith.add_of_fits (hfits.mono (by omega))
  have hend : A.add window.length (matchLen + 4) = .done (window.length + (matchLen + 4)) :=
    Arith.add_of_fits (hfits.mono (by omega))
  have hsub : A.sub window.length offset = .done (window.length - offset) :=
    Arith.sub_of_le (hbuf.mono (by omega)) hle
  simp only [decodeMatch, hadd, hend, hsub, Outcome.done_bind, Outcome.pure_eq,
    List.length_append]
  by_cases hroom : matchLen + 4 ≤ tail.length
  · rw [if_neg (by omega), if_pos hroom, copyMatch_eq hpos hle hroom hbuf]
    rfl
  · rw [if_pos (by omega), if_neg hroom]

/-- Every sum a run over `input` and a buffer of `cap` bytes can evaluate is exact. -/
def NoOverflow (A : Arith) (input : List UInt8) (cap : Nat) : Prop :=
  A.Fits (255 * input.length + max input.length cap + 19)

instance (A : Arith) (input : List UInt8) (cap : Nat) : Decidable (NoOverflow A input cap) :=
  inferInstanceAs (Decidable (A.Fits _))

/-- The part of a turn after the literals reads an offset and a length, and then
    handles the match. -/
theorem decodeReference_eq (hruns : Runs A input.length cap) {sp dp : Nat} {output : List UInt8}
    (t : UInt8) (hsp : sp < input.length) :
    decodeReference A input t sp dp output =
      match input.drop sp with
      | first :: second :: bytes =>
        if first.toNat + 256 * second.toNat = 0 ∨ dp < first.toNat + 256 * second.toNat then
          .done (.exit (none, output))
        else match lengthField (t.toNat % 16) bytes with
          | none => .done (.exit (none, output))
          | some (n, k) =>
            decodeMatch A (first.toNat + 256 * second.toNat) (sp + 2 + k) (A.norm n) dp output
      | _ => .done (.exit (none, output)) := by
  have hsp2 : A.add sp 2 = .done (sp + 2) := Arith.add_of_fits (hruns.fits.mono (by omega))
  have hsp1 : A.add sp 1 = .done (sp + 1) := Arith.add_of_fits (hruns.fits.mono (by omega))
  rw [decodeReference, hsp2, Outcome.done_bind]
  match hbytes : input.drop sp with
  | [] =>
    have hlen := List.drop_eq_nil_iff.mp hbytes
    omega
  | [first] =>
    have hlen := congrArg List.length hbytes
    simp only [List.length_drop, List.length_singleton] at hlen
    rw [if_pos (by omega)]
    rfl
  | first :: second :: bytes =>
    have hlen := congrArg List.length hbytes
    simp only [List.length_drop, List.length_cons] at hlen
    have hnext : input.drop (sp + 1) = second :: bytes := by
      rw [← List.drop_drop, hbytes]
      rfl
    have hrest : input.drop (sp + 2) = bytes := by
      rw [← List.drop_drop, hbytes]
      rfl
    rw [if_neg (by omega), index_of_drop hbytes, hsp1]
    simp only [Outcome.done_bind, index_of_drop hnext, or_shiftLeft, lowNibble,
      readLength_eq hruns (low_le t) (show sp + 2 ≤ input.length by omega), hrest]
    cases lengthField (t.toNat % 16) bytes <;> rfl

/-- The part of a turn after the literals reads a back-reference and follows it. -/
theorem decodeReference_spec {window tail : List UInt8} (literals : List UInt8) (t : UInt8)
    {sp : Nat} (hsp : sp < input.length)
    (hfits : NoOverflow A input (window.length + tail.length)) :
    decodeReference A input t sp window.length (window ++ tail) =
      .done (match readReference (t.toNat % 16) literals (input.drop sp) with
        | some (.sequence s rest) =>
          if (1 ≤ s.offset.toNat ∧ s.offset.toNat ≤ window.length) ∧ s.matchLen ≤ tail.length then
            .next ⟨input.length - rest.length, window.length + s.matchLen,
              Lz77.copyBack window s.offset.toNat s.matchLen ++ tail.drop s.matchLen⟩
          else .exit (none, window ++ tail)
        | _ => .exit (none, window ++ tail)) := by
  rw [decodeReference_eq (runs_of_fits hfits) t hsp]
  rcases hbytes : input.drop sp with _ | ⟨first, _ | ⟨second, bytes⟩⟩
  · rfl
  · rfl
  · have hlen := congrArg List.length hbytes
    simp only [List.length_drop, List.length_cons] at hlen
    have hoffset : (UInt16.ofNat (first.toNat + 256 * second.toNat)).toNat =
        first.toNat + 256 * second.toNat := by
      apply UInt16.toNat_ofNat_of_lt'
      have h1 := first.toNat_lt
      have h2 := second.toNat_lt
      show _ < 2 ^ 16
      omega
    simp only [readReference, value_pair]
    rcases hfield : lengthField (t.toNat % 16) bytes with _ | ⟨n, k⟩
    · simp only [Option.bind_eq_bind, Option.bind_none, ite_self]
    · obtain ⟨hn, hk⟩ := lengthField_le (low_le t) hfield
      have hnorm : A.norm n = n := Arith.norm_of_fits (hfits.mono (by omega))
      have hconsumed : input.length - (bytes.drop k).length = sp + 2 + k := by
        rw [List.length_drop]
        omega
      simp only [hnorm, Option.bind_eq_bind, Option.bind_some, Option.pure_def, hoffset,
        hconsumed]
      by_cases hvalid : 1 ≤ first.toNat + 256 * second.toNat ∧
          first.toNat + 256 * second.toNat ≤ window.length
      · rw [if_neg (by omega), decodeMatch_spec hvalid.1 hvalid.2 (hfits.mono (by omega))
          (hfits.mono (by omega))]
        by_cases hroom : n + 4 ≤ tail.length
        · rw [if_pos hroom, if_pos ⟨hvalid, hroom⟩]
        · rw [if_neg hroom, if_neg (fun h => hroom h.2)]
      · rw [if_pos (by omega), if_neg (fun h => hvalid h.1)]

/-- The literals of a turn, when they lie in the input and there is room for them. -/
theorem decodeLiterals_fit {window tail : List UInt8} (t : UInt8) {sp n : Nat}
    (hin : sp + n ≤ input.length) (hout : n ≤ tail.length)
    (hsp : A.Fits (sp + n)) (hdp : A.Fits (window.length + n)) :
    decodeLiterals A input t sp n window.length (window ++ tail) =
      if sp + n = input.length then
        .done (.exit (some (window.length + n),
          window ++ (input.drop sp).take n ++ tail.drop n))
      else decodeReference A input t (sp + n) (window.length + n)
        (window ++ (input.drop sp).take n ++ tail.drop n) := by
  have hslice : slice input sp (sp + n) = .done ((input.drop sp).take n) := by
    rw [slice_of_le (by omega) hin, List.drop_take]
    congr 2
    omega
  have hcopy : copyFromSlice (window ++ tail) window.length (window.length + n)
      ((input.drop sp).take n) = .done (window ++ (input.drop sp).take n ++ tail.drop n) := by
    have hdrop : (window ++ tail).drop (window.length + n) = tail.drop n := by
      rw [← List.drop_drop, List.drop_left]
    rw [copyFromSlice_of_le (by omega) (by rw [List.length_append]; omega)
      (by rw [List.length_take, List.length_drop]; omega), List.take_left, hdrop]
  simp only [decodeLiterals, Arith.add_of_fits hsp, Arith.add_of_fits hdp, Outcome.done_bind,
    List.length_append, hslice, hcopy]
  rw [if_neg (by omega), if_neg (by omega)]
  by_cases hend : sp + n = input.length
  · rw [if_pos (by omega), if_pos hend]
    rfl
  · rw [if_neg (by omega), if_neg hend]

/-- The literals of a turn, when they run past the input or past the buffer. -/
theorem decodeLiterals_short {window tail : List UInt8} (t : UInt8) {sp n : Nat}
    (hshort : input.length < sp + n ∨ tail.length < n)
    (hsp : A.Fits (sp + n)) (hdp : A.Fits (window.length + n)) :
    decodeLiterals A input t sp n window.length (window ++ tail) =
      .done (.exit (none, window ++ tail)) := by
  simp only [decodeLiterals, Arith.add_of_fits hsp, Arith.add_of_fits hdp, Outcome.done_bind,
    List.length_append, Outcome.pure_eq]
  by_cases hin : input.length < sp + n
  · rw [if_pos hin]
  · rw [if_neg hin, if_pos (by omega)]

/-- A turn reads a token and a length, and then handles the literals. -/
theorem decodeTurn_eq (hruns : Runs A input.length cap) {sp dp : Nat} {output : List UInt8}
    {t : UInt8} {bytes : List UInt8} (hbytes : input.drop sp = t :: bytes) :
    decodeTurn A input ⟨sp, dp, output⟩ =
      match lengthField (t.toNat / 16) bytes with
      | none => .done (.exit (none, output))
      | some (n, k) => decodeLiterals A input t (sp + 1 + k) (A.norm n) dp output := by
  have hsp : sp < input.length := by
    have hlen := congrArg List.length hbytes
    simp only [List.length_drop, List.length_cons] at hlen
    omega
  have hrest : input.drop (sp + 1) = bytes := by
    rw [← List.drop_drop, hbytes]
    rfl
  have hsp1 : A.add sp 1 = .done (sp + 1) := Arith.add_of_fits (hruns.fits.mono (by omega))
  rw [decodeTurn, if_neg (by simp only; omega)]
  simp only [index_of_drop hbytes, hsp1, Outcome.done_bind, highNibble,
    readLength_eq hruns (high_le t) hsp, hrest]
  cases lengthField (t.toNat / 16) bytes <;> rfl

theorem decodeTurn_end {sp dp : Nat} {output : List UInt8} (hend : input.drop sp = []) :
    decodeTurn A input ⟨sp, dp, output⟩ = .done (.exit (some dp, output)) := by
  rw [decodeTurn, if_pos (List.drop_eq_nil_iff.mp hend)]
  rfl

def Piece.turn (inputLen : Nat) (window tail : List UInt8) : Piece → Option (Turn Cursor Decoded)
  | .closing c =>
    if c.literals.length ≤ tail.length then
      some (.exit (some (window.length + c.literals.length),
        window ++ c.literals ++ tail.drop c.literals.length))
    else none
  | .sequence s rest =>
    (s.step.apply window).bind fun grown =>
      if grown.length ≤ window.length + tail.length then
        some (.next ⟨inputLen - rest.length, grown.length,
          grown ++ tail.drop (grown.length - window.length)⟩)
      else none

/-- The turn that `step` describes, or a failure that has left the window alone. -/
def Follows (window tail : List UInt8) (step : Option (Turn Cursor Decoded))
    (result : Outcome (Turn Cursor Decoded)) : Prop :=
  match step with
  | some turn => result = .done turn
  | none => ∃ rest, rest.length = tail.length ∧ result = .done (.exit (none, window ++ rest))

private theorem follows_failure {window tail : List UInt8}
    {step : Option (Turn Cursor Decoded)} (h : step = none) :
    Follows window tail step (.done (.exit (none, window ++ tail))) := by
  rw [h]
  exact ⟨tail, rfl, rfl⟩

/-- The turn of a sequence, over the window its literals have already joined. -/
private theorem sequence_turn (inputLen : Nat) (s : Sequence) (rest : List UInt8)
    {window tail : List UInt8} (hroom : s.literals.length ≤ tail.length) :
    Piece.turn inputLen window tail (.sequence s rest) =
      if (1 ≤ s.offset.toNat ∧ s.offset.toNat ≤ (window ++ s.literals).length) ∧
          s.matchLen ≤ (tail.drop s.literals.length).length then
        some (.next ⟨inputLen - rest.length, (window ++ s.literals).length + s.matchLen,
          Lz77.copyBack (window ++ s.literals) s.offset.toNat s.matchLen ++
            (tail.drop s.literals.length).drop s.matchLen⟩)
      else none := by
  simp only [Piece.turn, Sequence.step_apply]
  by_cases hvalid : 1 ≤ s.offset.toNat ∧ s.offset.toNat ≤ (window ++ s.literals).length
  · have hlen := Lz77.length_copyBack hvalid.1 hvalid.2 s.matchLen
    have hgrow : (Lz77.copyBack (window ++ s.literals) s.offset.toNat s.matchLen).length -
        window.length = s.literals.length + s.matchLen := by
      rw [hlen, List.length_append]
      omega
    rw [if_pos hvalid, Option.bind_some, hgrow, hlen, List.drop_drop]
    simp only [List.length_append, List.length_drop]
    by_cases hfit : s.matchLen ≤ tail.length - s.literals.length
    · rw [if_pos (by omega), if_pos ⟨by simpa using hvalid, hfit⟩]
    · rw [if_neg (by omega), if_neg (fun h => hfit h.2)]
  · rw [if_neg hvalid, if_neg (fun h => hvalid h.1)]
    rfl

/-- Without room for its literals a sequence is not followed. -/
private theorem sequence_turn_short (inputLen : Nat) (s : Sequence) (rest : List UInt8)
    {window tail : List UInt8} (hshort : tail.length < s.literals.length) :
    Piece.turn inputLen window tail (.sequence s rest) = none := by
  simp only [Piece.turn, Option.bind_eq_none_iff]
  intro grown hgrown
  have hlen : grown.length = window.length + s.literals.length + s.matchLen :=
    (Lz77.Step.apply_grows hgrown).2
  rw [if_neg (by omega)]

/-- A turn that reads a back-reference follows it, when its literals fit. -/
private theorem decodeReference_follows {window tail : List UInt8} {t : UInt8}
    (literals : List UInt8) (sp : Nat)
    (hsp : sp < input.length) (hroom : literals.length ≤ tail.length)
    (hfits : NoOverflow A input (window.length + tail.length)) :
    Follows window tail
      ((readReference (t.toNat % 16) literals (input.drop sp)).bind
        (Piece.turn input.length window tail))
      (decodeReference A input t sp (window.length + literals.length)
        (window ++ literals ++ tail.drop literals.length)) := by
  have hsum : (window ++ literals).length + (tail.drop literals.length).length =
      window.length + tail.length := by
    rw [List.length_append, List.length_drop]
    omega
  have hfail : Follows window tail none
      (.done (.exit (none, window ++ literals ++ tail.drop literals.length))) := by
    refine ⟨literals ++ tail.drop literals.length, ?_, by rw [List.append_assoc]⟩
    rw [List.length_append, List.length_drop]
    omega
  rw [← List.length_append, decodeReference_spec literals t hsp (by rw [hsum]; exact hfits)]
  match hpiece : readReference (t.toNat % 16) literals (input.drop sp) with
  | none => exact hfail
  | some piece =>
    obtain ⟨s, rest, rfl, rfl, -, -⟩ :=
      readReference_eq_some (low_le t) hpiece
    rw [Option.bind_some, sequence_turn _ _ _ hroom]
    simp only
    split
    · rfl
    · exact hfail

/-- The literals of a turn end the block, or come before a back-reference. -/
private theorem decodeLiterals_follows {window tail : List UInt8} (t : UInt8) {sp n : Nat}
    (hin : sp + n ≤ input.length) (hsp : A.Fits (sp + n)) (hdp : A.Fits (window.length + n))
    (hfits : NoOverflow A input (window.length + tail.length)) :
    Follows window tail
      ((if input.length - sp = n then
          some (.closing ⟨input.drop sp, ⟨t.toNat % 16, Nat.mod_lt _ (by decide)⟩⟩)
        else readReference (t.toNat % 16) ((input.drop sp).take n)
          ((input.drop sp).drop n)).bind (Piece.turn input.length window tail))
      (decodeLiterals A input t sp n window.length (window ++ tail)) := by
  have htake : ((input.drop sp).take n).length = n := by
    rw [List.length_take, List.length_drop]
    omega
  by_cases hroom : n ≤ tail.length
  · rw [decodeLiterals_fit t hin hroom hsp hdp]
    by_cases hend : input.length - sp = n
    · have hall : (input.drop sp).length = n := by rw [List.length_drop, hend]
      rw [if_pos hend, if_pos (by omega), List.take_of_length_le (by omega)]
      simp only [Option.bind_some, Piece.turn, hall, if_pos hroom]
      rfl
    · have hfollow := decodeReference_follows (t := t) ((input.drop sp).take n) (sp + n)
        (by omega) (by rw [htake]; exact hroom) hfits
      rw [htake] at hfollow
      rw [if_neg hend, if_neg (by omega), List.drop_drop]
      exact hfollow
  · rw [decodeLiterals_short t (Or.inr (by omega)) hsp hdp]
    apply follows_failure
    by_cases hend : input.length - sp = n
    · rw [if_pos hend, Option.bind_some]
      simp only [Piece.turn, List.length_drop, hend, if_neg hroom]
    · rw [if_neg hend, Option.bind_eq_none_iff]
      intro piece hpiece
      obtain ⟨s, rest, rfl, hliterals, -, -⟩ := readReference_eq_some (low_le t) hpiece
      exact sequence_turn_short _ _ _ (by rw [hliterals, htake]; omega)

/-- **One turn of the decoder** reads the piece the rest of the input starts with
    and follows it. -/
theorem decodeTurn_spec {window tail : List UInt8} {sp : Nat}
    (hfits : NoOverflow A input (window.length + tail.length)) (hne : input.drop sp ≠ []) :
    Follows window tail
      ((readPiece (input.drop sp)).bind (Piece.turn input.length window tail))
      (decodeTurn A input ⟨sp, window.length, window ++ tail⟩) := by
  rcases hbytes : input.drop sp with _ | ⟨t, bytes⟩
  · exact absurd hbytes hne
  · have hlen := congrArg List.length hbytes
    simp only [List.length_drop, List.length_cons] at hlen
    rw [decodeTurn_eq (runs_of_fits hfits) hbytes]
    simp only [readPiece]
    rcases hfield : lengthField (t.toNat / 16) bytes with _ | ⟨n, k⟩
    · exact follows_failure rfl
    · obtain ⟨hn, hk⟩ := lengthField_le (high_le t) hfield
      have hnorm : A.norm n = n := Arith.norm_of_fits (hfits.mono (by omega))
      have hafter : input.drop (sp + 1 + k) = bytes.drop k := by
        rw [Nat.add_assoc, ← List.drop_drop, hbytes, Nat.add_comm, List.drop_succ_cons]
      have hleft : (bytes.drop k).length = input.length - (sp + 1 + k) := by
        rw [← hafter, List.length_drop]
      have hspFits : A.Fits (sp + 1 + k + n) := hfits.mono (by omega)
      have hdpFits : A.Fits (window.length + n) := hfits.mono (by omega)
      simp only [hnorm, Option.bind_eq_bind, Option.bind_some, Option.pure_def, hleft]
      rw [← hafter]
      by_cases hshort : input.length - (sp + 1 + k) < n
      · rw [if_pos hshort, decodeLiterals_short t (Or.inl (by omega)) hspFits hdpFits]
        exact follows_failure rfl
      · rw [if_neg hshort]
        exact decodeLiterals_follows t (by omega) hspFits hdpFits hfits

end Turn

end ImgTools.Lz4
