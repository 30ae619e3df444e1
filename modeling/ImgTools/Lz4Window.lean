import ImgTools.Lz4DecoderWrapSafe

/-!
# A window of 64 KiB suffices for dependent blocks

An offset has 16 bits, so a match never reaches further back than 65535 bytes, and
a decoder that keeps that much of the history reads the same bytes as one that
keeps all of it. The two runs differ in their positions by a constant. On
wrapping words this shows where a sum of length bytes carries one position past
the end of the word and not the other: there the run with the longer history
panics and the other refuses the length.
-/

namespace ImgTools.Lz4

open Exec

/-! ### Lengths that tell the two runs apart -/

/-- In the word, the length carries the position `shift + dp` past the end, and not `dp`. -/
def splits (w shift dp len : Nat) : Bool :=
  dp + len % 2 ^ w < 2 ^ w && 2 ^ w ≤ shift + dp + len % 2 ^ w

def windowSafeReference (w cap shift : Nat) (next : List UInt8 → Nat → Bool) (low : Nat)
    (bytes : List UInt8) (dp : Nat) : Bool :=
  match bytes with
  | first :: second :: bytes =>
    let offset := first.toNat + 256 * second.toNat
    if offset = 0 ∨ dp < offset then true
    else match lengthField low bytes with
      | none => true
      | some (n, k) =>
        let matchLen := n + 4
        if dp + matchLen % 2 ^ w ≤ cap then next (bytes.drop k) (dp + matchLen % 2 ^ w)
        else !splits w shift dp matchLen
  | _ => true

def windowSafeFrom (w n cap shift : Nat) : Nat → List UInt8 → Nat → Bool
  | 0, _, _ => true
  | _ + 1, [], _ => true
  | budget + 1, token :: bytes, dp =>
    match lengthField (token.toNat / 16) bytes with
    | none => true
    | some (len, k) =>
      let bytes := bytes.drop k
      let sp := n - bytes.length
      if sp + len % 2 ^ w ≤ n ∧ dp + len % 2 ^ w ≤ cap then
        windowSafeReference w cap shift (windowSafeFrom w n cap shift budget) (token.toNat % 16)
          (bytes.drop (len % 2 ^ w)) (dp + len % 2 ^ w)
      else !(2 ^ w ≤ sp + len % 2 ^ w && splits w shift dp len)

/-- No length of the block that does not fit tells a run whose history is `shift`
    bytes longer from a run into a buffer of `cap` bytes with a window of `prefixLen`. -/
def windowSafe (w : Nat) (input : List UInt8) (cap shift prefixLen : Nat) : Bool :=
  windowSafeFrom w input.length cap shift (input.length + 1) input prefixLen

/-! ### Runs with bytes in front of the window -/

/-- What a run leaves, with `front` before its window. -/
def inFront (front : List UInt8) (r : Decoded) : Decoded :=
  (r.1.map (front.length + ·), front ++ r.2)

section Wrap

variable {w : Nat} {input : List UInt8} {cap : Nat}

theorem Abi.mono {n cap cap' : Nat} (h : Abi w n cap') (hle : cap ≤ cap') : Abi w n cap :=
  ⟨h.wide, h.input, Nat.lt_of_le_of_lt hle h.output⟩

/-- A sum that does not fit is let through only if it leaves the word. -/
theorem lt_mod_iff {c p : Nat} (len : Nat) (hc : c < 2 ^ w) (hp : p ≤ c)
    (hover : c < p + len % 2 ^ w) :
    c < (p + len) % 2 ^ w ↔ p + len % 2 ^ w < 2 ^ w := by
  have hlt := Nat.mod_lt len (Nat.two_pow_pos w)
  have hcases := Arith.sum_mod_cases (show p ≤ 2 ^ w by omega) hlt
  rw [← Nat.add_mod_mod]
  omega

/-- Literals that do not fit are let through only if both sums leave the word. -/
theorem refusesLiterals_iff (habi : Abi w input.length cap) (sp dp len : Nat)
    (hsp : sp ≤ input.length) (hdp : dp ≤ cap) (hlen : len < 2 ^ w)
    (hunfit : ¬ (sp + len ≤ input.length ∧ dp + len ≤ cap)) :
    refusesLiterals w input.length cap sp dp len = true ↔
      sp + len < 2 ^ w ∨ dp + len < 2 ^ w := by
  have hpow := habi.pow
  have hin := habi.input
  have hout := habi.output
  have hspMod := Arith.sum_mod_cases (show sp ≤ 2 ^ w by omega) hlen
  have hdpMod := Arith.sum_mod_cases (show dp ≤ 2 ^ w by omega) hlen
  simp only [refusesLiterals, Bool.or_eq_true, decide_eq_true_eq]
  omega

/-- The two runs end alike, one with `front` before its window. -/
def Alike (front : List UInt8) (full windowed : Outcome Decoded) : Prop :=
  full = inFront front <$> windowed

theorem alike_failure (front output : List UInt8) :
    Alike front (.done (none, front ++ output)) (.done (none, output)) := rfl

theorem not_alike_panic (front : List UInt8) (reason : Panic) (r : Decoded) :
    ¬ Alike front (.panic reason) (.done r) := by
  intro h
  cases h

def LoopAlike (w : Nat) (input front : List UInt8) (budget sp : Nat) (window tail : List UInt8) :
    Prop :=
  Alike front
    (loop (decodeTurn (.wrapping w) input) budget
      ⟨sp, (front ++ window).length, front ++ window ++ tail⟩)
    (loop (decodeTurn (.wrapping w) input) budget ⟨sp, window.length, window ++ tail⟩)

section Turn

variable {front window tail : List UInt8} {budget : Nat}

theorem windowSafeMatch_iff (habi : Abi w input.length (front.length + cap))
    (hcap : window.length + tail.length = cap) {offset sp n : Nat} (hpos : 1 ≤ offset)
    (hle : offset ≤ window.length) (next : Nat → Bool)
    (ih : ∀ window' tail', window.length ≤ window'.length → window'.length + tail'.length = cap →
      (next window'.length = true ↔ LoopAlike w input front budget sp window' tail')) :
    (if window.length + (n + 4) % 2 ^ w ≤ cap then next (window.length + (n + 4) % 2 ^ w)
      else !splits w front.length window.length (n + 4)) = true ↔
    Alike front
      (decodeMatch (.wrapping w) offset sp (n % 2 ^ w) (front ++ window).length
          (front ++ window ++ tail) >>= afterTurn (decodeTurn (.wrapping w) input) budget)
      (decodeMatch (.wrapping w) offset sp (n % 2 ^ w) window.length (window ++ tail) >>=
        afterTurn (decodeTurn (.wrapping w) input) budget) := by
  have hpow := habi.pow
  have hout := habi.output
  have hsum : (front ++ window).length = front.length + window.length := List.length_append
  have hcap' : (front ++ window).length + tail.length = front.length + cap := by omega
  have hcopy := Lz77.length_copyBack hpos hle ((n + 4) % 2 ^ w)
  rw [decodeMatch_wrapping (habi.mono (Nat.le_add_left _ _)) hcap hpos hle,
    decodeMatch_wrapping habi hcap' hpos (by omega),
    Lz77.copyBack_append_left front hpos hle]
  by_cases hroom : window.length + (n + 4) % 2 ^ w ≤ cap
  · have hexact : (window.length + (n + 4)) % 2 ^ w = window.length + (n + 4) % 2 ^ w := by
      rw [← Nat.add_mod_mod, Nat.mod_eq_of_lt (by omega)]
    have hexact' : ((front ++ window).length + (n + 4)) % 2 ^ w =
        (front ++ window).length + (n + 4) % 2 ^ w := by
      rw [← Nat.add_mod_mod, Nat.mod_eq_of_lt (by omega)]
    have hnext := ih (Lz77.copyBack window offset ((n + 4) % 2 ^ w)) (tail.drop ((n + 4) % 2 ^ w))
      (by omega) (by rw [List.length_drop]; omega)
    rw [if_pos hroom, if_neg (by omega), if_pos (by omega), if_neg (by omega), if_pos (by omega),
      ← hcopy, hnext, LoopAlike, List.length_append, List.length_append, hcopy, Nat.add_assoc]
    rfl
  · have hcarry := lt_mod_iff (n + 4) (show cap < 2 ^ w by omega)
      (show window.length ≤ cap by omega) (by omega)
    have hcarry' := lt_mod_iff (n + 4) (show front.length + cap < 2 ^ w by omega)
      (show front.length + window.length ≤ front.length + cap by omega) (by omega)
    have hover : ¬ (n + 4) % 2 ^ w ≤ tail.length := by omega
    simp only [hsum, hcarry, hcarry', if_neg hroom, if_neg hover]
    by_cases hshort : window.length + (n + 4) % 2 ^ w < 2 ^ w
    · by_cases hlong : front.length + window.length + (n + 4) % 2 ^ w < 2 ^ w
      · rw [if_pos hshort, if_pos hlong, List.append_assoc]
        exact iff_of_true (by simp [splits, hlong]) (alike_failure front _)
      · rw [if_pos hshort, if_neg hlong]
        exact iff_of_false (by simp [splits, hshort, Nat.not_lt.mp hlong])
          (not_alike_panic front _ _)
    · rw [if_neg hshort, if_neg (by omega)]
      exact iff_of_true (by simp [splits, hshort]) rfl

theorem windowSafeReference_iff (habi : Abi w input.length (front.length + cap))
    (hcap : window.length + tail.length = cap) (hcovers : 65535 ≤ window.length ∨ front = [])
    (ih : ∀ sp window' tail', sp ≤ input.length → input.length - sp < budget →
      window'.length + tail'.length = cap → window.length ≤ window'.length →
      (windowSafeFrom w input.length cap front.length budget (input.drop sp) window'.length = true ↔
        LoopAlike w input front budget sp window' tail'))
    (t : UInt8) {sp : Nat} (hsp : sp ≤ input.length) (hbudget : input.length - sp ≤ budget) :
    windowSafeReference w cap front.length (windowSafeFrom w input.length cap front.length budget)
        (t.toNat % 16) (input.drop sp) window.length = true ↔
    Alike front
      (afterLiterals (.wrapping w) input t sp (front ++ window).length (front ++ window ++ tail) >>=
        afterTurn (decodeTurn (.wrapping w) input) budget)
      (afterLiterals (.wrapping w) input t sp window.length (window ++ tail) >>=
        afterTurn (decodeTurn (.wrapping w) input) budget) := by
  have hsum : (front ++ window).length = front.length + window.length := List.length_append
  by_cases hend : sp = input.length
  · have hnil : input.drop sp = [] := List.drop_eq_nil_of_le (by omega)
    simp only [hnil, windowSafeReference, afterLiterals, if_pos hend, true_iff]
    rw [hsum, List.append_assoc]
    rfl
  have hlt : sp < input.length := by omega
  simp only [afterLiterals, if_neg hend, decodeReference_eq habi.runs t hlt]
  rcases hbytes : input.drop sp with _ | ⟨first, _ | ⟨second, bytes⟩⟩
  · rw [List.append_assoc]
    exact iff_of_true rfl (alike_failure front _)
  · rw [List.append_assoc]
    exact iff_of_true rfl (alike_failure front _)
  have hlen := congrArg List.length hbytes
  simp only [List.length_drop, List.length_cons] at hlen
  have hoffset : first.toNat + 256 * second.toNat ≤ 65535 := by
    have hfirst := first.toNat_lt
    have hsecond := second.toNat_lt
    omega
  -- the window covers every offset, so both runs accept the same ones
  have hsame : (front ++ window).length < first.toNat + 256 * second.toNat ↔
      window.length < first.toNat + 256 * second.toNat := by
    rcases hcovers with hcovers | rfl
    · omega
    · rw [List.nil_append]
  simp only [windowSafeReference, hsame]
  by_cases hbad : first.toNat + 256 * second.toNat = 0 ∨
      window.length < first.toNat + 256 * second.toNat
  · rw [if_pos hbad, if_pos hbad, if_pos hbad, List.append_assoc]
    exact iff_of_true rfl (alike_failure front _)
  rw [if_neg hbad, if_neg hbad, if_neg hbad]
  rcases hfield : lengthField (t.toNat % 16) bytes with _ | ⟨n, k⟩
  · rw [List.append_assoc]
    exact iff_of_true rfl (alike_failure front _)
  obtain ⟨-, hk⟩ := lengthField_le (low_le t) hfield
  have hrest : bytes.drop k = input.drop (sp + 2 + k) := by
    rw [← List.drop_drop, ← List.drop_drop, hbytes]
    rfl
  simp only [hrest, Arith.norm]
  exact windowSafeMatch_iff habi hcap (by omega) (by omega) _
    fun window' tail' hgrown hcap' => ih _ window' tail' (by omega) (by omega) hcap' hgrown

/-- The literals of a turn, whose length has been summed to `n`, and what follows them. -/
theorem windowSafeLiterals_iff (habi : Abi w input.length (front.length + cap))
    (hcap : window.length + tail.length = cap) (hcovers : 65535 ≤ window.length ∨ front = [])
    (ih : ∀ sp window' tail', sp ≤ input.length → input.length - sp < budget →
      window'.length + tail'.length = cap → window.length ≤ window'.length →
      (windowSafeFrom w input.length cap front.length budget (input.drop sp) window'.length = true ↔
        LoopAlike w input front budget sp window' tail'))
    (t : UInt8) {sp n : Nat} (hsp : sp ≤ input.length) (hbudget : input.length - sp ≤ budget) :
    (if sp + n % 2 ^ w ≤ input.length ∧ window.length + n % 2 ^ w ≤ cap then
        windowSafeReference w cap front.length
          (windowSafeFrom w input.length cap front.length budget) (t.toNat % 16)
          ((input.drop sp).drop (n % 2 ^ w)) (window.length + n % 2 ^ w)
      else !(2 ^ w ≤ sp + n % 2 ^ w && splits w front.length window.length n)) = true ↔
    Alike front
      (decodeLiterals (.wrapping w) input t sp (n % 2 ^ w) (front ++ window).length
          (front ++ window ++ tail) >>= afterTurn (decodeTurn (.wrapping w) input) budget)
      (decodeLiterals (.wrapping w) input t sp (n % 2 ^ w) window.length (window ++ tail) >>=
        afterTurn (decodeTurn (.wrapping w) input) budget) := by
  have hpow := habi.pow
  have habi' : Abi w input.length cap := habi.mono (Nat.le_add_left _ _)
  have hsum : (front ++ window).length = front.length + window.length := List.length_append
  have hcap' : (front ++ window).length + tail.length = front.length + cap := by omega
  have hlen : n % 2 ^ w < 2 ^ w := Nat.mod_lt n (Nat.two_pow_pos w)
  generalize hmod : n % 2 ^ w = len at hlen ⊢
  by_cases hfit : sp + len ≤ input.length ∧ window.length + len ≤ cap
  · obtain ⟨hin, hroom⟩ := hfit
    have hgrown := length_append_literals window hin
    have hgrown' : (front ++ window ++ (input.drop sp).take len).length =
        (front ++ window).length + len := length_append_literals _ hin
    rw [if_pos ⟨hin, hroom⟩, decodeLiterals_wrapping_fit habi' hcap t hin hroom,
      decodeLiterals_wrapping_fit habi hcap' t hin (by omega), List.drop_drop, ← hgrown, ← hgrown',
      List.append_assoc front]
    refine windowSafeReference_iff habi ?_ ?_ ?_ t hin (by omega)
    · rw [hgrown, List.length_drop]
      omega
    · rw [hgrown]
      exact hcovers.imp_left (Nat.le_trans · (Nat.le_add_right _ _))
    · intro sp' window' tail' hsp' hless hcap'' hle
      rw [hgrown] at hle
      exact ih sp' window' tail' hsp' hless hcap'' (by omega)
  · have hrefuse := refusesLiterals_iff habi' sp _ len hsp (show window.length ≤ cap by omega) hlen
      hfit
    have hrefuse' := refusesLiterals_iff habi sp _ len hsp
      (show (front ++ window).length ≤ front.length + cap by omega) hlen (by omega)
    rw [hsum] at hrefuse'
    have hcondition : (!(2 ^ w ≤ sp + len && splits w front.length window.length n)) = true ↔
        (sp + len < 2 ^ w ∨ window.length + len < 2 ^ w →
          sp + len < 2 ^ w ∨ front.length + window.length + len < 2 ^ w) := by
      simp only [splits, hmod, Bool.not_eq_true', Bool.and_eq_false_imp, decide_eq_true_eq,
        decide_eq_false_iff_not]
      omega
    rw [if_neg hfit, hcondition, decodeLiterals_wrapping_unfit habi' hcap t hsp hlen hfit,
      decodeLiterals_wrapping_unfit habi hcap' t hsp hlen (by omega), hsum]
    by_cases hrefused : sp + len < 2 ^ w ∨ window.length + len < 2 ^ w
    · rw [if_pos (hrefuse.mpr hrefused)]
      by_cases hrefused' : sp + len < 2 ^ w ∨ front.length + window.length + len < 2 ^ w
      · rw [if_pos (hrefuse'.mpr hrefused'), List.append_assoc]
        exact iff_of_true (fun _ => hrefused') (alike_failure front _)
      · rw [if_neg fun h => hrefused' (hrefuse'.mp h)]
        exact iff_of_false (fun hsafe => hrefused' (hsafe hrefused)) (not_alike_panic front _ _)
    · -- what passes from the window passes from in front of it too
      have hpassed : ¬ (sp + len < 2 ^ w ∨ front.length + window.length + len < 2 ^ w) := by omega
      rw [if_neg fun h => hrefused (hrefuse.mp h), if_neg fun h => hpassed (hrefuse'.mp h)]
      exact iff_of_true (fun h => absurd h hrefused) rfl

/-- **The condition is exact** from any point of the input on. -/
theorem windowSafeFrom_iff (habi : Abi w input.length (front.length + cap)) (budget : Nat) :
    ∀ sp (window tail : List UInt8), sp ≤ input.length → input.length - sp < budget →
      window.length + tail.length = cap → (65535 ≤ window.length ∨ front = []) →
      (windowSafeFrom w input.length cap front.length budget (input.drop sp) window.length = true ↔
        LoopAlike w input front budget sp window tail) := by
  induction budget with
  | zero =>
    intro sp window tail _ hbudget
    omega
  | succ budget ih =>
    intro sp window tail hsp hbudget hcap hcovers
    have hsum : (front ++ window).length = front.length + window.length := List.length_append
    rw [LoopAlike, loop_succ, loop_succ]
    rcases hbytes : input.drop sp with _ | ⟨t, bytes⟩
    · rw [decodeTurn_end hbytes, decodeTurn_end hbytes, hsum, List.append_assoc]
      exact iff_of_true rfl rfl
    have hlen := congrArg List.length hbytes
    simp only [List.length_drop, List.length_cons] at hlen
    simp only [windowSafeFrom, decodeTurn_eq habi.runs hbytes]
    rcases hfield : lengthField (t.toNat / 16) bytes with _ | ⟨n, k⟩
    · rw [List.append_assoc]
      exact iff_of_true rfl (alike_failure front _)
    obtain ⟨-, hk⟩ := lengthField_le (high_le t) hfield
    have hrest : bytes.drop k = input.drop (sp + 1 + k) := by
      rw [← List.drop_drop, ← List.drop_drop, hbytes]
      rfl
    have hconsumed : input.length - (input.drop (sp + 1 + k)).length = sp + 1 + k := by
      rw [List.length_drop]
      omega
    simp only [hrest, hconsumed, Arith.norm]
    refine windowSafeLiterals_iff habi hcap hcovers ?_ t (by omega) (by omega)
    intro sp' window' tail' hsp' hless hcap' hgrown
    exact ih sp' window' tail' hsp' hless hcap' (hcovers.imp_left (Nat.le_trans · hgrown))

end Turn

end Wrap

/-! ### Whole runs -/

/-- With `front` before the window the run yields the same count, or the same failure,
    and leaves the same bytes behind `front`. -/
def SameDecoding (A : Arith) (input front window free : List UInt8) : Prop :=
  lz4DecompressBlockWithPrefix A input (front ++ window ++ free) (front ++ window).length =
    (fun r => (r.1, front ++ r.2)) <$>
      lz4DecompressBlockWithPrefix A input (window ++ free) window.length

def countFrom (w prefixLen : Nat) (r : Decoded) : Decoded :=
  (r.1.map fun dp => (dp + 2 ^ w - prefixLen) % 2 ^ w, r.2)

theorem lz4DecompressBlockWithPrefix_countFrom (w : Nat) (input dst : List UInt8)
    (prefixLen : Nat) :
    lz4DecompressBlockWithPrefix (.wrapping w) input dst prefixLen =
      countFrom w prefixLen <$>
        loop (decodeTurn (.wrapping w) input) (input.length + 1) ⟨0, prefixLen, dst⟩ := by
  unfold lz4DecompressBlockWithPrefix
  rcases loop (decodeTurn (.wrapping w) input) (input.length + 1) ⟨0, prefixLen, dst⟩ with
    ⟨_ | dp, output⟩ | reason | _ <;> rfl

section Whole

variable {w : Nat} {input front window free : List UInt8}

theorem countFrom_inFront (prefixLen : Nat) (r : Decoded) :
    countFrom w (front.length + prefixLen) (inFront front r) =
      ((countFrom w prefixLen r).1, front ++ (countFrom w prefixLen r).2) := by
  obtain ⟨_ | dp, output⟩ := r
  · rfl
  · simp only [countFrom, inFront, Option.map_some, Nat.add_assoc, Nat.add_sub_add_left]

/-- The position that a main loop ends with is counted from the window. -/
theorem count_of_loop (habi : Abi w input.length (window.length + free.length)) {r : Decoded}
    (h : loop (decodeTurn (.wrapping w) input) (input.length + 1)
      ⟨0, window.length, window ++ free⟩ = .done r) :
    ∀ dp, r.1 = some dp →
      window.length ≤ dp ∧ (dp + 2 ^ w - window.length) % 2 ^ w = dp - window.length := by
  intro dp hdp
  have hpow := habi.pow
  have hout := habi.output
  obtain ⟨-, hbounds⟩ := loop_keeps habi rfl h
  obtain ⟨hle, hcap⟩ := hbounds dp hdp
  have hshift : dp + 2 ^ w - window.length = dp - window.length + 2 ^ w := by omega
  refine ⟨hle, ?_⟩
  rw [hshift, Nat.add_mod_right, Nat.mod_eq_of_lt (by omega)]

theorem sameDecoding_iff
    (habi : Abi w input.length (front.length + (window.length + free.length))) :
    SameDecoding (.wrapping w) input front window free ↔
      LoopAlike w input front (input.length + 1) 0 window free := by
  have hsum : (front ++ window).length = front.length + window.length := List.length_append
  have hcount := @count_of_loop w input window free (habi.mono (Nat.le_add_left _ _))
  have hcount' := @count_of_loop w input (front ++ window) free (by rwa [hsum, Nat.add_assoc])
  rw [SameDecoding, lz4DecompressBlockWithPrefix_countFrom, lz4DecompressBlockWithPrefix_countFrom,
    LoopAlike, Alike]
  generalize loop (decodeTurn (.wrapping w) input) (input.length + 1)
    ⟨0, window.length, window ++ free⟩ = windowed at hcount ⊢
  generalize loop (decodeTurn (.wrapping w) input) (input.length + 1)
    ⟨0, (front ++ window).length, front ++ window ++ free⟩ = full at hcount' ⊢
  rw [hsum] at hcount' ⊢
  constructor
  · intro h
    rcases windowed with ⟨final, output⟩ | reason | _
    · obtain ⟨⟨final', output'⟩, hfull, hr⟩ := Outcome.bind_eq_done.mp h
      obtain ⟨hfinal, rfl⟩ := Prod.mk.inj (Outcome.done.inj hr)
      rw [hfull]
      refine congrArg Outcome.done (Prod.ext ?_ rfl)
      rcases final with _ | dp <;> rcases final' with _ | dp' <;> try cases hfinal
      · rfl
      · obtain ⟨hle, heq⟩ := hcount rfl dp rfl
        obtain ⟨hle', heq'⟩ := hcount' hfull dp' rfl
        have hsame := Option.some.inj hfinal
        simp only [heq, heq'] at hsame
        refine congrArg some ?_
        show dp' = front.length + dp
        omega
    · rcases full with r | reason' | _
      · cases h
      · cases h
        rfl
      · cases h
    · rcases full with r | reason' | _
      · cases h
      · cases h
      · rfl
  · rintro rfl
    rw [← comp_map, ← comp_map]
    exact congrFun (congrArg _ (funext (countFrom_inFront window.length))) windowed

theorem covers_of_min (h : min (front ++ window).length 65535 ≤ window.length) :
    65535 ≤ window.length ∨ front = [] := by
  rw [List.length_append] at h
  rcases Nat.lt_or_ge window.length 65535 with hshort | hcovers
  · exact Or.inr (List.length_eq_zero_iff.mp (by omega))
  · exact Or.inl hcovers

/-- **One block**: the runs agree exactly when no length tells them apart. -/
theorem sameDecoding_iff_windowSafe
    (habi : Abi w input.length (front.length + (window.length + free.length)))
    (hcovers : min (front ++ window).length 65535 ≤ window.length) :
    SameDecoding (.wrapping w) input front window free ↔
      windowSafe w input (window ++ free).length front.length window.length = true := by
  have hiff := windowSafeFrom_iff habi (input.length + 1) 0 window free (Nat.zero_le _)
    (Nat.lt_succ_self _) rfl (covers_of_min hcovers)
  rw [List.drop_zero] at hiff
  rw [sameDecoding_iff habi, ← hiff, windowSafe, List.length_append]

end Whole

/-! ### Blocks whose sums cannot leave the word -/

section Short

variable {w n cap shift : Nat}

theorem splits_of_lt {dp len : Nat} (h : shift + dp + len < 2 ^ w) :
    splits w shift dp len = false := by
  have hle := Nat.mod_le len (2 ^ w)
  simp only [splits, Bool.and_eq_false_imp, decide_eq_true_eq, decide_eq_false_iff_not]
  omega

theorem windowSafeReference_of_lt {next : List UInt8 → Nat → Bool} (t : UInt8)
    {bytes : List UInt8} {dp : Nat} (h : 255 * bytes.length + shift + cap + 19 < 2 ^ w)
    (hdp : dp ≤ cap)
    (hnext : ∀ rest dp, rest.length ≤ bytes.length → dp ≤ cap → next rest dp = true) :
    windowSafeReference w cap shift next (t.toNat % 16) bytes dp = true := by
  rcases bytes with _ | ⟨first, _ | ⟨second, bytes⟩⟩
  · rfl
  · rfl
  simp only [windowSafeReference]
  split
  · rfl
  rcases hfield : lengthField (t.toNat % 16) bytes with _ | ⟨n, k⟩
  · rfl
  obtain ⟨hlen, hk⟩ := lengthField_le (low_le t) hfield
  rw [List.length_cons, List.length_cons] at h hnext
  have hcarry : splits w shift dp (n + 4) = false := splits_of_lt (by omega)
  simp only [hcarry, Bool.not_false]
  split
  · next hroom =>
    refine hnext _ _ ?_ hroom
    rw [List.length_drop]
    omega
  · rfl

theorem windowSafeFrom_of_lt (h : 255 * n + shift + cap + 19 < 2 ^ w) (budget : Nat) :
    ∀ (bytes : List UInt8) (dp : Nat), bytes.length ≤ n → dp ≤ cap →
      windowSafeFrom w n cap shift budget bytes dp = true := by
  induction budget with
  | zero => exact fun _ _ _ _ => rfl
  | succ budget ih =>
    intro bytes dp hbytes hdp
    rcases bytes with _ | ⟨t, bytes⟩
    · rfl
    rw [List.length_cons] at hbytes
    simp only [windowSafeFrom]
    rcases hfield : lengthField (t.toNat / 16) bytes with _ | ⟨len, k⟩
    · rfl
    obtain ⟨hlen, hk⟩ := lengthField_le (high_le t) hfield
    have hcarry : splits w shift dp len = false := splits_of_lt (by omega)
    simp only [hcarry, Bool.and_false, Bool.not_false]
    split
    · next hfit =>
      have hrest : ((bytes.drop k).drop (len % 2 ^ w)).length ≤ n := by
        rw [List.length_drop, List.length_drop]
        omega
      exact windowSafeReference_of_lt t (by omega) hfit.2
        fun rest dp hshort hdp => ih rest dp (hshort.trans hrest) hdp
    · rfl

/-- A block whose length bytes cannot add up to the end of the word never tells the
    runs apart. -/
theorem windowSafe_of_lt {input : List UInt8} {prefixLen : Nat}
    (h : 255 * input.length + shift + cap + 19 < 2 ^ w) (hle : prefixLen ≤ cap) :
    windowSafe w input cap shift prefixLen = true :=
  windowSafeFrom_of_lt h _ _ _ (Nat.le_refl _) hle

end Short

/-! ### Chains of dependent blocks -/

/-- What a decoder keeps of the bytes it has decoded: some of the last, and 65535 of
    them when there are as many. -/
def KeepsWindow (keep : List UInt8 → List UInt8) : Prop :=
  ∀ bytes, keep bytes <:+ bytes ∧ min bytes.length 65535 ≤ (keep bytes).length

/-- The blocks of a chain, each with the room behind the window it is decoded into,
    decoded one after the other behind what is kept of the bytes before them. -/
def decodeChain (A : Arith) (keep : List UInt8 → List UInt8) :
    List (List UInt8 × List UInt8) → (kept : List UInt8) → Outcome (Option (List (List UInt8)))
  | [], _ => return some []
  | (block, free) :: blocks, kept => do
    match ← lz4DecompressBlockWithPrefix A block (kept ++ free) kept.length with
    | (none, _) => return none
    | (some written, dst) =>
      let decoded := (dst.drop kept.length).take written
      match ← decodeChain A keep blocks (keep (kept ++ decoded)) with
      | none => return none
      | some more => return some (decoded :: more)

/-- A step of a chain on the words of an ABI: the allocations are possible, and the
    block does not tell the history from the window. -/
structure StepSafe (w : Nat) (block free history window : List UInt8) : Prop where
  block_le : block.length ≤ 2 ^ (w - 1) - 1
  buffer_le : (history ++ free).length ≤ 2 ^ (w - 1) - 1
  safe : windowSafe w block (window ++ free).length (history.length - window.length)
    window.length = true

def ChainSafe (w : Nat) (keep : List UInt8 → List UInt8) :
    List (List UInt8 × List UInt8) → (history window : List UInt8) → Prop
  | [], _, _ => True
  | (block, free) :: blocks, history, window =>
    StepSafe w block free history window ∧
    ∀ written dst, lz4DecompressBlockWithPrefix (.wrapping w) block (history ++ free)
        history.length = .done (some written, dst) →
      ChainSafe w keep blocks (history ++ (dst.drop history.length).take written)
        (keep (window ++ (dst.drop history.length).take written))

/-- The last `count` bytes are a window, if they are 65535 or more. -/
theorem keepsWindow_last {count : Nat} (h : 65535 ≤ count) :
    KeepsWindow fun bytes => bytes.drop (bytes.length - count) := by
  intro bytes
  refine ⟨List.drop_suffix _ _, ?_⟩
  rw [List.length_drop]
  omega

/-- **A chain of safe steps** is decoded alike with the history and with the window. -/
theorem decodeChain_eq {w : Nat} (hw : 8 ≤ w) {keep : List UInt8 → List UInt8}
    (hkeep : KeepsWindow keep) (blocks : List (List UInt8 × List UInt8)) :
    ∀ history window : List UInt8, window <:+ history →
      min history.length 65535 ≤ window.length → ChainSafe w keep blocks history window →
      decodeChain (.wrapping w) id blocks history =
        decodeChain (.wrapping w) keep blocks window := by
  have hpos : 0 < 2 ^ (w - 1) := Nat.two_pow_pos _
  induction blocks with
  | nil => exact fun _ _ _ _ _ => rfl
  | cons step blocks ih =>
    obtain ⟨block, free⟩ := step
    rintro history window ⟨front, rfl⟩ hcovers ⟨⟨hblock, hbuffer, hsafe⟩, hnext⟩
    have hshift : (front ++ window).length - window.length = front.length := by
      rw [List.length_append, Nat.add_sub_cancel]
    have habi : Abi w block.length (front.length + (window.length + free.length)) := by
      rw [List.length_append, List.length_append] at hbuffer
      exact ⟨hw, by omega, by omega⟩
    rw [hshift] at hsafe
    have hsame := (sameDecoding_iff_windowSafe habi hcovers).mpr hsafe
    rw [SameDecoding] at hsame
    unfold decodeChain
    rcases hrun : lz4DecompressBlockWithPrefix (.wrapping w) block (window ++ free) window.length
      with ⟨_ | written, dst⟩ | reason | _
    · rw [hsame, hrun]
      rfl
    · rw [hrun] at hsame
      have hdrop : (front ++ dst).drop (front ++ window).length = dst.drop window.length := by
        rw [List.length_append, ← List.drop_drop, List.drop_left]
      have hrest := hnext written (front ++ dst) hsame
      rw [hdrop] at hrest
      obtain ⟨hsuffix, hlength⟩ := hkeep (window ++ (dst.drop window.length).take written)
      have hgoes := ih _ _ (hsuffix.trans ⟨front, (List.append_assoc _ _ _).symm⟩) (by
        rw [List.length_append] at hlength hcovers ⊢
        rw [List.length_append]
        omega) hrest
      rw [hsame]
      show (do
        match ← decodeChain (.wrapping w) id blocks (front ++ window ++
          ((front ++ dst).drop (front ++ window).length).take written) with
        | none => return none
        | some more =>
          return some (((front ++ dst).drop (front ++ window).length).take written :: more)) = _
      rw [hdrop, hgoes]
      rfl
    · rw [hsame, hrun]
      rfl
    · rw [hsame, hrun]
      rfl

/-- **When 64 KiB are enough.** On the words of an ABI, a block is decoded alike with
    the whole history and with at least its last 65535 bytes, whatever is in the
    buffer, exactly when none of its lengths tells the two apart; and every chain of
    blocks of which this holds, each where it stands, is decoded alike by a decoder
    that keeps everything and by one that keeps a window. -/
theorem window_suffices_iff (w : Nat) (hw : 8 ≤ w) :
    (∀ input front window free : List UInt8, input.length ≤ 2 ^ (w - 1) - 1 →
      (front ++ window ++ free).length ≤ 2 ^ (w - 1) - 1 →
      min (front ++ window).length 65535 ≤ window.length →
      (SameDecoding (.wrapping w) input front window free ↔
        windowSafe w input (window ++ free).length front.length window.length = true)) ∧
    ∀ keep, KeepsWindow keep → ∀ (blocks : List (List UInt8 × List UInt8)) (history : List UInt8),
      ChainSafe w keep blocks history (keep history) →
      decodeChain (.wrapping w) id blocks history =
        decodeChain (.wrapping w) keep blocks (keep history) := by
  have hpos : 0 < 2 ^ (w - 1) := Nat.two_pow_pos _
  constructor
  · intro input front window free hinput hbuffer hcovers
    refine sameDecoding_iff_windowSafe ⟨hw, by omega, ?_⟩ hcovers
    rw [List.length_append, List.length_append] at hbuffer
    omega
  · intro keep hkeep blocks history hsafe
    obtain ⟨hsuffix, hcovers⟩ := hkeep history
    exact decodeChain_eq hw hkeep blocks history (keep history) hsuffix hcovers hsafe

/-- A short block behind a history one byte longer than the window, and the chain of
    this block alone. -/
theorem window_suffices_iff_small :
    (SameDecoding (.wrapping 32) [0x12, 9, 3, 0] [7] (List.replicate 65535 1)
        (List.replicate 8 0) ↔
      windowSafe 32 [0x12, 9, 3, 0] (List.replicate 65535 (1 : UInt8) ++ List.replicate 8 0).length
        [(7 : UInt8)].length (List.replicate 65535 (1 : UInt8)).length = true) ∧
    decodeChain (.wrapping 32) id [([0x12, 9, 3, 0], List.replicate 8 0)] [1, 2] =
      decodeChain (.wrapping 32) (fun bytes => bytes.drop (bytes.length - 65536))
        [([0x12, 9, 3, 0], List.replicate 8 0)] [1, 2] := by
  constructor
  · have hwindow : (List.replicate 65535 (1 : UInt8)).length = 65535 := List.length_replicate
    apply (window_suffices_iff 32 (by decide)).1 [0x12, 9, 3, 0] [7] (List.replicate 65535 1)
      (List.replicate 8 0) (by decide)
    · rw [List.length_append, List.length_append, hwindow]
      decide
    · rw [List.length_append, hwindow]
      decide
  · exact (window_suffices_iff 32 (by decide)).2 _ (keepsWindow_last (by decide)) _ [1, 2]
      ⟨⟨by decide, by decide, windowSafe_of_lt (by decide) (by decide)⟩, fun _ _ _ => trivial⟩

/-! ### A block that tells the history from the window -/

section LongLiterals

variable {w : Nat} (count : Nat) (window tail : List UInt8)
  (habi : Abi w (longLiterals count []).length (window.length + tail.length))
  (hlen : 15 + 255 * count < 2 ^ w)

include habi hlen

/-- Literals that are not there are refused where their sum stays in the word. -/
theorem decode_longLiterals_refused (hstays : window.length + (15 + 255 * count) < 2 ^ w) :
    lz4DecompressBlockWithPrefix (.wrapping w) (longLiterals count []) (window ++ tail)
      window.length = .done (none, window ++ tail) := by
  have hlength := length_longLiterals count []
  rw [List.length_nil, Nat.add_zero] at hlength
  have hrefuse := (refusesLiterals_iff habi (count + 2) window.length
    (15 + 255 * count) (by omega) (by omega) hlen (by omega)).mpr (Or.inr hstays)
  refine lz4DecompressBlockWithPrefix_eq (r := (none, window ++ tail)) (loop_exit _ ?_)
    (by intro d hd; cases hd)
  rw [decodeTurn_longLiterals habi.runs, Arith.norm, Nat.mod_eq_of_lt hlen]
  rw [decodeLiterals_wrapping_unfit habi rfl 0xf0 (by omega) hlen (by omega), if_pos hrefuse]

/-- Where both sums leave the word, the slice of the literals panics. -/
theorem decode_longLiterals_panics (hsource : 2 ^ w ≤ count + 2 + (15 + 255 * count))
    (htarget : 2 ^ w ≤ window.length + (15 + 255 * count)) :
    lz4DecompressBlockWithPrefix (.wrapping w) (longLiterals count []) (window ++ tail)
      window.length = .panic .sliceOrder := by
  have hlength := length_longLiterals count []
  rw [List.length_nil, Nat.add_zero] at hlength
  have hrefuse := refusesLiterals_iff habi (count + 2) window.length
    (15 + 255 * count) (by omega) (by omega) hlen (by omega)
  have hturn : decodeTurn (.wrapping w) (longLiterals count [])
      ⟨0, window.length, window ++ tail⟩ = .panic .sliceOrder := by
    rw [decodeTurn_longLiterals habi.runs, Arith.norm, Nat.mod_eq_of_lt hlen]
    have hpassed : ¬ refusesLiterals w (longLiterals count []).length
        (window.length + tail.length) (count + 2) window.length (15 + 255 * count) = true := by
      intro hrefused
      have hstays := hrefuse.mp hrefused
      omega
    rw [decodeLiterals_wrapping_unfit habi rfl 0xf0 (by omega) hlen (by omega), if_neg hpassed]
  rw [lz4DecompressBlockWithPrefix, loop_succ, hturn]
  rfl

end LongLiterals

/-- On a 32-bit ABI 16842751 bytes of 255 carry a position of 65776 past the end of the
    word, and not one of 65536: with a history of 65776 bytes the decoder panics, and
    with the last 64 KiB of it the block is refused. -/
theorem window_suffices_fails :
    lz4DecompressBlockWithPrefix (.wrapping 32) (longLiterals 16842751 [])
      (List.replicate 240 0 ++ List.replicate 65536 0 ++ List.replicate 16 0)
      (List.replicate 240 (0 : UInt8) ++ List.replicate 65536 0).length = .panic .sliceOrder ∧
    lz4DecompressBlockWithPrefix (.wrapping 32) (longLiterals 16842751 [])
      (List.replicate 65536 0 ++ List.replicate 16 0) (List.replicate 65536 (0 : UInt8)).length =
        .done (none, List.replicate 65536 0 ++ List.replicate 16 0) ∧
    ¬ SameDecoding (.wrapping 32) (longLiterals 16842751 []) (List.replicate 240 0)
      (List.replicate 65536 0) (List.replicate 16 0) := by
  have hlength := length_longLiterals 16842751 []
  rw [List.length_nil, Nat.add_zero] at hlength
  have hfront : (List.replicate 240 (0 : UInt8)).length = 240 := List.length_replicate
  have hwindow : (List.replicate 65536 (0 : UInt8)).length = 65536 := List.length_replicate
  have hfree : (List.replicate 16 (0 : UInt8)).length = 16 := List.length_replicate
  have hhistory : (List.replicate 240 (0 : UInt8) ++ List.replicate 65536 0).length = 65776 := by
    rw [List.length_append, hfront, hwindow]
  have hfull := decode_longLiterals_panics (w := 32) 16842751
    (List.replicate 240 0 ++ List.replicate 65536 0) (List.replicate 16 0)
    ⟨by decide, by omega, by omega⟩ (by decide) (by decide) (by omega)
  have hwindowed := decode_longLiterals_refused (w := 32) 16842751
    (List.replicate 65536 0) (List.replicate 16 0)
    ⟨by decide, by omega, by omega⟩ (by decide) (by omega)
  refine ⟨hfull, hwindowed, ?_⟩
  intro hsame
  rw [SameDecoding, hfull, hwindowed] at hsame
  cases hsame

end ImgTools.Lz4
