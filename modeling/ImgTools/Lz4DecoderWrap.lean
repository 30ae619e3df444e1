import ImgTools.Lz4DecoderCorrect

/-!
# What the LZ4 decoder does on wrapping words

A release build adds `usize` values modulo `2 ^ w`. When the input and the buffer
fit half the address space, as every allocation does, positions are exact and
only lengths wrap: a turn then refuses a length, moves its low `w` bits, or
panics. In every case the run keeps the bytes it has already written
(`loop_keeps`), which is what tells it from a run that failed earlier.
-/

namespace ImgTools.Lz4

open Exec

/-- The sums of the literal check, taken in the word, refuse the literals. -/
def refusesLiterals (w n cap sp dp len : Nat) : Bool :=
  n < (sp + len) % 2 ^ w || cap < (dp + len) % 2 ^ w

/-- The words of an ABI, with an input and a buffer that its address space can hold. -/
structure Abi (w n cap : Nat) : Prop where
  wide : 8 ≤ w
  input : n < 2 ^ (w - 1)
  output : cap < 2 ^ (w - 1)

theorem Abi.pow {w n cap : Nat} (h : Abi w n cap) :
    2 ^ w = 2 * 2 ^ (w - 1) ∧ 256 ≤ 2 ^ w := by
  have hwide := h.wide
  have hsucc : w = w - 1 + 1 := by omega
  constructor
  · rw [← Nat.pow_succ']
    exact congrArg _ hsucc
  · exact Nat.pow_le_pow_right (n := 2) (by decide) hwide

theorem Abi.runs {w n cap : Nat} (h : Abi w n cap) : Runs (.wrapping w) n cap where
  quiet := Arith.quiet_wrapping w _
  fits := by
    have hpow := h.pow
    have hin := h.input
    have hout := h.output
    exact Arith.fits_wrapping.mpr (by omega)
  nibble := by
    have hpow := h.pow
    exact Arith.fits_wrapping.mpr (by omega)

section Wrap

variable {w : Nat} {input : List UInt8} {cap : Nat}

def afterLiterals (A : Arith) (input : List UInt8) (t : UInt8) (sp dp : Nat)
    (output : List UInt8) : Outcome (Turn Cursor Decoded) :=
  if sp = input.length then .done (.exit (some dp, output))
  else decodeReference A input t sp dp output

/-- Literals of a length below the word that do not fit: refused, or a panic. -/
theorem decodeLiterals_wrapping_unfit (habi : Abi w input.length cap) {window tail : List UInt8}
    (hcap : window.length + tail.length = cap) (t : UInt8) {sp len : Nat}
    (hsp : sp ≤ input.length) (hlen : len < 2 ^ w)
    (hunfit : ¬ (sp + len ≤ input.length ∧ window.length + len ≤ cap)) :
    decodeLiterals (.wrapping w) input t sp len window.length (window ++ tail) =
      if refusesLiterals w input.length cap sp window.length len then
        .done (.exit (none, window ++ tail))
      else .panic .sliceOrder := by
  have hpow := habi.pow
  have hin := habi.input
  have hout := habi.output
  have hadd : ∀ a b, (Arith.wrapping w).add a b = .done ((a + b) % 2 ^ w) := fun _ _ => rfl
  simp only [refusesLiterals, Bool.or_eq_true, decide_eq_true_eq, decodeLiterals, hadd,
    Outcome.done_bind, List.length_append, hcap]
  by_cases hrefuse : input.length < (sp + len) % 2 ^ w ∨ cap < (window.length + len) % 2 ^ w
  · rw [if_pos hrefuse]
    rcases hrefuse with h | h
    · rw [if_pos h]
      rfl
    · rw [if_pos h, ite_self]
      rfl
  · have hspMod := Arith.sum_mod_cases (show sp ≤ 2 ^ w by omega) hlen
    have hdpMod := Arith.sum_mod_cases (show window.length ≤ 2 ^ w by omega) hlen
    rw [if_neg hrefuse, if_neg (by omega), if_neg (by omega)]
    by_cases hinverted : (sp + len) % 2 ^ w < sp
    · rw [slice, if_pos hinverted]
      rfl
    · rw [slice_of_le (by omega) (by omega), Outcome.done_bind, copyFromSlice,
        if_pos (by omega)]
      rfl

theorem length_append_literals (window : List UInt8) {sp len : Nat}
    (hin : sp + len ≤ input.length) :
    (window ++ (input.drop sp).take len).length = window.length + len := by
  rw [List.length_append, List.length_take, List.length_drop]
  omega

theorem decodeLiterals_wrapping_fit (habi : Abi w input.length cap) {window tail : List UInt8}
    (hcap : window.length + tail.length = cap) (t : UInt8) {sp len : Nat}
    (hin : sp + len ≤ input.length) (hroom : window.length + len ≤ cap) :
    decodeLiterals (.wrapping w) input t sp len window.length (window ++ tail) =
      afterLiterals (.wrapping w) input t (sp + len) (window.length + len)
        (window ++ (input.drop sp).take len ++ tail.drop len) := by
  have hpow := habi.pow
  have hinput := habi.input
  have houtput := habi.output
  have hsp : (Arith.wrapping w).Fits (sp + len) := Arith.fits_wrapping.mpr (by omega)
  have hdp : (Arith.wrapping w).Fits (window.length + len) := Arith.fits_wrapping.mpr (by omega)
  exact decodeLiterals_fit t hin (by omega) hsp hdp

theorem copyMatch_add (A : Arith) (dp srcPos front back i : Nat) (output : List UInt8) :
    copyMatch A dp srcPos (front + back) i output =
      copyMatch A dp srcPos front i output >>= copyMatch A dp srcPos back (i + front) := by
  induction front generalizing i output with
  | zero => simp [copyMatch]
  | succ front ih =>
    have hcount : front + 1 + back = front + back + 1 := by omega
    have hindex : i + 1 + front = i + (front + 1) := by omega
    simp only [hcount, copyMatch, bind_assoc, ih, hindex]

/-- The copy loop runs into the end of the buffer when the match does not fit. -/
theorem copyMatch_panic (habi : Abi w input.length cap) {window tail : List UInt8}
    (hcap : window.length + tail.length = cap) {offset count : Nat} (hpos : 1 ≤ offset)
    (hle : offset ≤ window.length) (hcount : tail.length < count) :
    copyMatch (.wrapping w) window.length (window.length - offset) count 0 (window ++ tail) =
      .panic .indexOutOfBounds := by
  have hpow := habi.pow
  have hout := habi.output
  have hfull := Lz77.length_copyBack hpos hle tail.length
  obtain ⟨rest, rfl⟩ : ∃ rest, count = tail.length + (rest + 1) :=
    ⟨count - tail.length - 1, by omega⟩
  have hsource : (Arith.wrapping w).add (window.length - offset) tail.length =
      .done (window.length - offset + tail.length) :=
    Arith.add_of_fits (Arith.fits_wrapping.mpr (by omega))
  have htarget : (Arith.wrapping w).add window.length tail.length =
      .done (window.length + tail.length) :=
    Arith.add_of_fits (Arith.fits_wrapping.mpr (by omega))
  rw [copyMatch_add, copyMatch_eq hpos hle (Nat.le_refl _) (Arith.fits_wrapping.mpr (by omega)),
    Outcome.done_bind, List.drop_length, List.append_nil, Nat.zero_add, copyMatch, hsource,
    Outcome.done_bind, index_of_lt (by omega), Outcome.done_bind, htarget, Outcome.done_bind,
    store, if_neg (by omega)]
  rfl

/-- The match of a turn: refused, copied, or a panic. -/
theorem decodeMatch_wrapping (habi : Abi w input.length cap) {window tail : List UInt8}
    (hcap : window.length + tail.length = cap) {offset sp n : Nat} (hpos : 1 ≤ offset)
    (hle : offset ≤ window.length) :
    decodeMatch (.wrapping w) offset sp (n % 2 ^ w) window.length (window ++ tail) =
      if cap < (window.length + (n + 4)) % 2 ^ w then .done (.exit (none, window ++ tail))
      else if (n + 4) % 2 ^ w ≤ tail.length then
        .done (.next ⟨sp, window.length + (n + 4) % 2 ^ w,
          Lz77.copyBack window offset ((n + 4) % 2 ^ w) ++ tail.drop ((n + 4) % 2 ^ w)⟩)
      else .panic .indexOutOfBounds := by
  have hpow := habi.pow
  have hout := habi.output
  have hlen : (Arith.wrapping w).add (n % 2 ^ w) 4 = .done ((n + 4) % 2 ^ w) :=
    congrArg _ (Nat.mod_add_mod n _ 4)
  have hend : (Arith.wrapping w).add window.length ((n + 4) % 2 ^ w) =
      .done ((window.length + (n + 4)) % 2 ^ w) := by
    rw [Arith.add, Arith.word, Nat.add_mod_mod]
  have hsub : (Arith.wrapping w).sub window.length offset = .done (window.length - offset) :=
    Arith.sub_of_le (Arith.fits_wrapping.mpr (by omega)) hle
  simp only [decodeMatch, hlen, hend, hsub, Outcome.done_bind, List.length_append, hcap]
  by_cases hrefuse : cap < (window.length + (n + 4)) % 2 ^ w
  · rw [if_pos hrefuse, if_pos hrefuse]
    rfl
  rw [if_neg hrefuse, if_neg hrefuse]
  by_cases hroom : (n + 4) % 2 ^ w ≤ tail.length
  · have hexact : (window.length + (n + 4)) % 2 ^ w = window.length + (n + 4) % 2 ^ w := by
      rw [← Nat.add_mod_mod, Nat.mod_eq_of_lt (by omega)]
    rw [if_pos hroom, copyMatch_eq hpos hle hroom (Arith.fits_wrapping.mpr (by omega)), hexact]
    rfl
  · rw [if_neg hroom, copyMatch_panic habi hcap hpos hle (by omega)]
    rfl

/-! ### What a wrapping run keeps -/

/-- A turn keeps the window, and leaves with a position at or after its end. -/
def Keeps (window : List UInt8) (inputLen cap : Nat) : Turn Cursor Decoded → Prop
  | .next c => c.sp ≤ inputLen ∧ ∃ grown tail, c = ⟨c.sp, grown.length, grown ++ tail⟩ ∧
      grown.length + tail.length = cap ∧ window <+: grown
  | .exit r => window <+: r.2 ∧ ∀ d, r.1 = some d → window.length ≤ d ∧ d ≤ cap

theorem keeps_failure {window grown : List UInt8} (hkept : window <+: grown) (tail : List UInt8)
    (inputLen cap : Nat) : Keeps window inputLen cap (.exit (none, grown ++ tail)) :=
  ⟨hkept.trans (List.prefix_append _ _), by simp⟩

theorem decodeMatch_keeps (habi : Abi w input.length cap) {window grown tail : List UInt8}
    (hcap : grown.length + tail.length = cap) (hkept : window <+: grown) {offset sp n : Nat}
    (hpos : 1 ≤ offset) (hle : offset ≤ grown.length) (hsp : sp ≤ input.length)
    {turn : Turn Cursor Decoded}
    (h : decodeMatch (.wrapping w) offset sp (n % 2 ^ w) grown.length (grown ++ tail) =
      .done turn) :
    Keeps window input.length cap turn := by
  rw [decodeMatch_wrapping habi hcap hpos hle] at h
  split at h
  · obtain rfl := Outcome.done.inj h
    exact keeps_failure hkept tail _ _
  split at h
  · next hroom =>
    obtain rfl := Outcome.done.inj h
    have hcopy := Lz77.length_copyBack hpos hle ((n + 4) % 2 ^ w)
    refine ⟨hsp, _, tail.drop ((n + 4) % 2 ^ w), by rw [hcopy], ?_,
      hkept.trans (Lz77.prefix_copyBack _ _ _)⟩
    rw [hcopy, List.length_drop]
    omega
  · simp at h

theorem afterLiterals_keeps (habi : Abi w input.length cap) {window grown tail : List UInt8}
    (hcap : grown.length + tail.length = cap) (hkept : window <+: grown) {t : UInt8} {sp : Nat}
    (hsp : sp ≤ input.length) {turn : Turn Cursor Decoded}
    (h : afterLiterals (.wrapping w) input t sp grown.length (grown ++ tail) = .done turn) :
    Keeps window input.length cap turn := by
  unfold afterLiterals at h
  split at h
  · obtain rfl := Outcome.done.inj h
    refine ⟨hkept.trans (List.prefix_append _ _), ?_⟩
    intro d hd
    have hle := hkept.length_le
    simp only [Option.some.injEq] at hd
    omega
  rw [decodeReference_eq habi.runs t (by omega)] at h
  match hbytes : input.drop sp with
  | [] | [first] =>
    rw [hbytes] at h
    obtain rfl := Outcome.done.inj h
    exact keeps_failure hkept tail _ _
  | first :: second :: bytes =>
    rw [hbytes] at h
    have hlen := congrArg List.length hbytes
    simp only [List.length_drop, List.length_cons] at hlen
    simp only at h
    split at h
    · obtain rfl := Outcome.done.inj h
      exact keeps_failure hkept tail _ _
    next hoffset =>
    match hfield : lengthField (t.toNat % 16) bytes with
    | none =>
      rw [hfield] at h
      obtain rfl := Outcome.done.inj h
      exact keeps_failure hkept tail _ _
    | some (n, k) =>
      obtain ⟨-, hk⟩ := lengthField_le (low_le t) hfield
      rw [hfield] at h
      exact decodeMatch_keeps habi hcap hkept (by omega) (by omega) (by omega) h

theorem decodeTurn_keeps (habi : Abi w input.length cap) {window tail : List UInt8}
    (hcap : window.length + tail.length = cap) {sp : Nat}
    {turn : Turn Cursor Decoded}
    (h : decodeTurn (.wrapping w) input ⟨sp, window.length, window ++ tail⟩ = .done turn) :
    Keeps window input.length cap turn := by
  have hpow := habi.pow
  match hbytes : input.drop sp with
  | [] =>
    rw [decodeTurn_end hbytes] at h
    obtain rfl := Outcome.done.inj h
    refine ⟨List.prefix_append _ _, ?_⟩
    intro d hd
    simp only [Option.some.injEq] at hd
    omega
  | t :: bytes =>
    have hlen := congrArg List.length hbytes
    simp only [List.length_drop, List.length_cons] at hlen
    rw [decodeTurn_eq habi.runs hbytes] at h
    match hfield : lengthField (t.toNat / 16) bytes with
    | none =>
      rw [hfield] at h
      obtain rfl := Outcome.done.inj h
      exact keeps_failure (List.prefix_refl _) tail _ _
    | some (n, k) =>
      obtain ⟨-, hk⟩ := lengthField_le (high_le t) hfield
      rw [hfield] at h
      simp only [Arith.norm] at h
      by_cases hfit : sp + 1 + k + n % 2 ^ w ≤ input.length ∧ window.length + n % 2 ^ w ≤ cap
      · have hgrown := length_append_literals window hfit.1
        rw [decodeLiterals_wrapping_fit habi hcap t hfit.1 hfit.2, ← hgrown] at h
        refine afterLiterals_keeps habi ?_ (List.prefix_append _ _) hfit.1 h
        rw [hgrown, List.length_drop]
        omega
      · rw [decodeLiterals_wrapping_unfit habi hcap t (by omega)
          (Nat.mod_lt n (Nat.two_pow_pos w)) hfit] at h
        split at h
        · obtain rfl := Outcome.done.inj h
          exact keeps_failure (List.prefix_refl _) tail _ _
        · cases h

/-- A wrapping run keeps the window it starts with. -/
theorem loop_keeps (habi : Abi w input.length cap) {window tail : List UInt8}
    (hcap : window.length + tail.length = cap) {sp budget : Nat} {r : Decoded}
    (h : loop (decodeTurn (.wrapping w) input) budget ⟨sp, window.length, window ++ tail⟩ =
      .done r) :
    window <+: r.2 ∧ ∀ d, r.1 = some d → window.length ≤ d ∧ d ≤ cap := by
  refine loop_inv (decodeTurn (.wrapping w) input)
    (fun c => ∃ grown tail, c = ⟨c.sp, grown.length, grown ++ tail⟩ ∧
      grown.length + tail.length = cap ∧ window <+: grown)
    (fun r => window <+: r.2 ∧ ∀ d, r.1 = some d → window.length ≤ d ∧ d ≤ cap)
    ?_ ?_ budget _ r ⟨window, tail, rfl, hcap, List.prefix_refl _⟩ h
  · rintro c c' ⟨grown, rest, hc, hsum, hkept⟩ hturn
    rw [hc] at hturn
    obtain ⟨-, grown', rest', hc', hsum', hkept'⟩ := decodeTurn_keeps habi hsum hturn
    exact ⟨grown', rest', hc', hsum', hkept.trans hkept'⟩
  · rintro c r ⟨grown, rest, hc, hsum, hkept⟩ hturn
    rw [hc] at hturn
    obtain ⟨hkept', hd⟩ := decodeTurn_keeps habi hsum hturn
    have hle := hkept.length_le
    refine ⟨hkept.trans hkept', ?_⟩
    intro d hr
    have hd' := hd d hr
    omega

theorem loop_afterLiterals_keeps (habi : Abi w input.length cap) {window tail : List UInt8}
    (hcap : window.length + tail.length = cap) {sp budget : Nat} (hsp : sp ≤ input.length)
    {t : UInt8} {r : Decoded}
    (h : (afterLiterals (.wrapping w) input t sp window.length (window ++ tail) >>=
      afterTurn (decodeTurn (.wrapping w) input) budget) = .done r) : window <+: r.2 := by
  obtain ⟨turn, hturn, hrest⟩ := Outcome.bind_eq_done.mp h
  have hkeeps := afterLiterals_keeps habi hcap (List.prefix_refl _) hsp hturn
  cases turn with
  | exit r' =>
    obtain rfl : r' = r := Outcome.done.inj hrest
    exact hkeeps.1
  | next c =>
    obtain ⟨-, grown, rest, hc, hsum, hkept⟩ := hkeeps
    rw [hc] at hrest
    exact hkept.trans (loop_keeps habi hsum hrest).1

end Wrap

end ImgTools.Lz4
