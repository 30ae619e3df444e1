import ImgTools.Lz4DecoderWrap

/-!
# When the LZ4 decoder survives wrapping words

The lengths of a block are sums of arbitrarily many length bytes, so a sum that
leaves the word can pass a bound check that its true value fails. `wrapSafe`
follows the sequences of a block and asks that no such sum be let through; it
reads the lengths with `lengthField` and the offsets from the block, and never
the buffer.

`lz4DecompressBlockWithPrefix_wrapping_iff` shows that the condition is exact:
it holds if and only if the wrapping run neither panics nor differs from the
run over unbounded integers, for every content of the buffer. A length that is
a multiple of `2 ^ w` moves nothing when it is let through, so the condition
goes on after it, now asking that the run fail without writing (`synced` is
`false`).
-/

namespace ImgTools.Lz4

open Exec

/-- The condition on the back-reference of a sequence; `next` is the condition on
    the sequences after it. -/
def wrapSafeReference (w cap : Nat) (next : Bool → List UInt8 → Nat → Bool) (synced : Bool)
    (low : Nat) (bytes : List UInt8) (dp : Nat) : Bool :=
  match bytes with
  | [] => synced
  | [_] => true
  | first :: second :: bytes =>
    let offset := first.toNat + 256 * second.toNat
    if offset = 0 ∨ dp < offset then true
    else match lengthField low bytes with
      | none => true
      | some (n, k) =>
        let matchLen := n + 4
        if cap < (dp + matchLen) % 2 ^ w then true
        else if synced ∧ dp + matchLen ≤ cap then next true (bytes.drop k) (dp + matchLen)
        else if matchLen % 2 ^ w = 0 then next false (bytes.drop k) dp
        else false

def wrapSafeFrom (w n cap : Nat) : Nat → Bool → List UInt8 → Nat → Bool
  | 0, _, _, _ => true
  | _ + 1, synced, [], _ => synced
  | budget + 1, synced, token :: bytes, dp =>
    match lengthField (token.toNat / 16) bytes with
    | none => true
    | some (len, k) =>
      let bytes := bytes.drop k
      let sp := n - bytes.length
      if refusesLiterals w n cap sp dp len then true
      else if synced ∧ sp + len ≤ n ∧ dp + len ≤ cap then
        wrapSafeReference w cap (wrapSafeFrom w n cap budget) true (token.toNat % 16)
          (bytes.drop len) (dp + len)
      else if len % 2 ^ w = 0 then
        wrapSafeReference w cap (wrapSafeFrom w n cap budget) false (token.toNat % 16) bytes dp
      else false

/-- No length of the block that has to be refused is let through by its `w`-bit sum,
    unless it moves nothing and the block fails later without moving anything. -/
def wrapSafe (w : Nat) (input : List UInt8) (cap prefixLen : Nat) : Bool :=
  wrapSafeFrom w input.length cap (input.length + 1) true input prefixLen

section Wrap

variable {w : Nat} {input : List UInt8} {cap : Nat}

def target (synced : Bool) (run : Outcome Decoded) (output : List UInt8) : Outcome Decoded :=
  if synced then run else .done (none, output)

@[simp] theorem target_failed (synced : Bool) (output : List UInt8) :
    target synced (.done (none, output)) output = .done (none, output) := by
  cases synced <;> rfl

/-- Where the unbounded run fails, the target is that failure. -/
theorem target_of_failed {synced : Bool} {run : Outcome Decoded} {output : List UInt8}
    (h : synced = true → run = .done (none, output)) :
    target synced run output = .done (none, output) := by
  cases synced with
  | false => rfl
  | true => exact h rfl

/-- The wrapping run from `sp` on does what it should, whatever the buffer holds
    beyond the window. -/
def AgreesFrom (w : Nat) (input : List UInt8) (cap budget : Nat) (synced : Bool) (sp : Nat)
    (window : List UInt8) : Prop :=
  ∀ tail, window.length + tail.length = cap →
    loop (decodeTurn (.wrapping w) input) budget ⟨sp, window.length, window ++ tail⟩ =
      target synced
        (loop (decodeTurn .unbounded input) budget ⟨sp, window.length, window ++ tail⟩)
        (window ++ tail)

def AgreesAfter (w : Nat) (input : List UInt8) (cap budget : Nat) (synced : Bool) (t : UInt8)
    (sp : Nat) (window : List UInt8) : Prop :=
  ∀ tail, window.length + tail.length = cap →
    (afterLiterals (.wrapping w) input t sp window.length (window ++ tail) >>=
        afterTurn (decodeTurn (.wrapping w) input) budget) =
      target synced
        (afterLiterals .unbounded input t sp window.length (window ++ tail) >>=
          afterTurn (decodeTurn .unbounded input) budget)
        (window ++ tail)

def AgreesOnMatch (w : Nat) (input : List UInt8) (cap budget : Nat) (synced : Bool)
    (offset sp n : Nat) (window : List UInt8) : Prop :=
  ∀ tail, window.length + tail.length = cap →
    (decodeMatch (.wrapping w) offset sp (n % 2 ^ w) window.length (window ++ tail) >>=
        afterTurn (decodeTurn (.wrapping w) input) budget) =
      target synced
        (decodeMatch .unbounded offset sp n window.length (window ++ tail) >>=
          afterTurn (decodeTurn .unbounded input) budget)
        (window ++ tail)

def AgreesOnLiterals (w : Nat) (input : List UInt8) (cap budget : Nat) (synced : Bool) (t : UInt8)
    (sp n : Nat) (window : List UInt8) : Prop :=
  ∀ tail, window.length + tail.length = cap →
    (decodeLiterals (.wrapping w) input t sp (n % 2 ^ w) window.length (window ++ tail) >>=
        afterTurn (decodeTurn (.wrapping w) input) budget) =
      target synced
        (decodeLiterals .unbounded input t sp n window.length (window ++ tail) >>=
          afterTurn (decodeTurn .unbounded input) budget)
        (window ++ tail)

/-- The buffers behind a window, as the buffers behind a longer one. -/
theorem forall_tail_drop {window grown : List UInt8} {count : Nat}
    (hgrown : grown.length = window.length + count) {P : List UInt8 → Prop} :
    (∀ tail : List UInt8, window.length + tail.length = cap → window.length + count ≤ cap →
        P (tail.drop count)) ↔
      ∀ tail, grown.length + tail.length = cap → P tail := by
  constructor
  · intro h tail hcap
    have hback := h (List.replicate count 0 ++ tail)
      (by rw [List.length_append, List.length_replicate]; omega) (by omega)
    rwa [List.drop_left' (List.length_replicate ..)] at hback
  · intro h tail hcap hle
    apply h
    rw [List.length_drop]
    omega

theorem exists_tail {window : List UInt8} (hwindow : window.length ≤ cap) :
    ∃ tail : List UInt8, window.length + tail.length = cap :=
  ⟨List.replicate (cap - window.length) 0, by rw [List.length_replicate]; omega⟩

/-- A run that has written differs from a failure that has not, for some buffer. -/
theorem exists_tail_differs {window grown : List UInt8} (hkept : window <+: grown)
    (hlt : window.length < grown.length) (hcap : grown.length ≤ cap) :
    ∃ tail, window.length + tail.length = cap ∧ ¬ grown <+: window ++ tail := by
  obtain ⟨added, rfl⟩ := hkept
  match added with
  | [] => simp at hlt
  | x :: added =>
    simp only [List.length_append, List.length_cons] at hcap
    refine ⟨(x + 1) :: List.replicate (cap - window.length - 1) 0, ?_, ?_⟩
    · simp only [List.length_cons, List.length_replicate]
      omega
    · intro hhistory
      have hhead := (List.cons_prefix_cons.mp ((List.prefix_append_right_inj _).mp hhistory)).1
      have hval := congrArg UInt8.toNat hhead
      rw [UInt8.toNat_add] at hval
      have hlt := x.toNat_lt
      simp only [UInt8.reduceToNat] at hval
      omega

/-- A run that panics, or has written `grown`, is not the failure that wrote nothing. -/
theorem not_failed_of_written {window grown : List UInt8} {run : List UInt8 → Outcome Decoded}
    (hwindow : window.length ≤ cap) (hkept : window <+: grown)
    (hlt : window.length < grown.length)
    (hrun : ∀ tail, window.length + tail.length = cap →
      (∃ reason, run tail = .panic reason) ∨
        (grown.length ≤ cap ∧ ∀ r, run tail = .done r → grown <+: r.2)) :
    ¬ ∀ tail, window.length + tail.length = cap → run tail = .done (none, window ++ tail) := by
  intro hfailed
  by_cases hcap : grown.length ≤ cap
  · obtain ⟨tail, hsum, hnot⟩ := exists_tail_differs hkept hlt hcap
    rcases hrun tail hsum with ⟨reason, hpanic⟩ | ⟨-, hdone⟩
    · rw [hfailed tail hsum] at hpanic
      simp at hpanic
    · exact hnot (hdone _ (hfailed tail hsum))
  · obtain ⟨tail, hsum⟩ := exists_tail hwindow
    rcases hrun tail hsum with ⟨reason, hpanic⟩ | ⟨hle, -⟩
    · rw [hfailed tail hsum] at hpanic
      simp at hpanic
    · exact hcap hle

/-! ### The match of a turn -/

section Match

variable {budget offset n sp : Nat} {synced : Bool} {window : List UInt8}

theorem decodeMatch_unbounded (hpos : 1 ≤ offset) (hle : offset ≤ window.length)
    (tail : List UInt8) :
    decodeMatch .unbounded offset sp n window.length (window ++ tail) =
      if n + 4 ≤ tail.length then
        .done (.next ⟨sp, window.length + (n + 4),
          Lz77.copyBack window offset (n + 4) ++ tail.drop (n + 4)⟩)
      else .done (.exit (none, window ++ tail)) :=
  decodeMatch_spec hpos hle (Arith.fits_unbounded _) (Arith.fits_unbounded _)

/-- Both runs refuse a match whose wrapped sum is too large. -/
theorem agreesOnMatch_of_refused (habi : Abi w input.length cap) (hpos : 1 ≤ offset)
    (hle : offset ≤ window.length) (hrefused : cap < (window.length + (n + 4)) % 2 ^ w) :
    AgreesOnMatch w input cap budget synced offset sp n window := by
  intro tail hcap
  have hmod := Nat.mod_le (window.length + (n + 4)) (2 ^ w)
  rw [decodeMatch_wrapping habi hcap hpos hle, if_pos hrefused, decodeMatch_unbounded hpos hle,
    if_neg (by omega), Outcome.done_bind, afterTurn, Outcome.done_bind, afterTurn,
    target_failed]

/-- Both runs copy a match that fits. -/
theorem agreesOnMatch_of_fit (habi : Abi w input.length cap) (hpos : 1 ≤ offset)
    (hle : offset ≤ window.length) (hpass : ¬ cap < (window.length + (n + 4)) % 2 ^ w)
    (hroom : window.length + (n + 4) ≤ cap) :
    AgreesOnMatch w input cap budget true offset sp n window ↔
      AgreesFrom w input cap budget true sp (Lz77.copyBack window offset (n + 4)) := by
  have hpow := habi.pow
  have hout := habi.output
  have hexact : (n + 4) % 2 ^ w = n + 4 := Nat.mod_eq_of_lt (by omega)
  have hlen := Lz77.length_copyBack hpos hle (n + 4)
  rw [AgreesFrom, ← forall_tail_drop hlen]
  refine forall_congr' fun tail => forall_congr' fun hcap => ?_
  rw [decodeMatch_wrapping habi hcap hpos hle, if_neg hpass, hexact, if_pos (by omega),
    decodeMatch_unbounded hpos hle, if_pos (by omega), hlen]
  exact ⟨fun h _ => h, fun h => h hroom⟩

theorem target_of_unfit_match (hpos : 1 ≤ offset) (hle : offset ≤ window.length)
    (hfit : ¬ (synced ∧ window.length + (n + 4) ≤ cap)) {tail : List UInt8}
    (hcap : window.length + tail.length = cap) :
    target synced
      (decodeMatch .unbounded offset sp n window.length (window ++ tail) >>=
        afterTurn (decodeTurn .unbounded input) budget) (window ++ tail) =
      .done (none, window ++ tail) := by
  refine target_of_failed fun hsynced => ?_
  have hshort : ¬ n + 4 ≤ tail.length := fun h => hfit ⟨hsynced, by omega⟩
  rw [decodeMatch_unbounded hpos hle, if_neg hshort, Outcome.done_bind, afterTurn]

/-- The wrapping run goes on without having moved anything. -/
theorem agreesOnMatch_of_zero (habi : Abi w input.length cap) (hpos : 1 ≤ offset)
    (hle : offset ≤ window.length) (hpass : ¬ cap < (window.length + (n + 4)) % 2 ^ w)
    (hfit : ¬ (synced ∧ window.length + (n + 4) ≤ cap)) (hzero : (n + 4) % 2 ^ w = 0) :
    AgreesOnMatch w input cap budget synced offset sp n window ↔
      AgreesFrom w input cap budget false sp window := by
  refine forall_congr' fun tail => forall_congr' fun hcap => ?_
  rw [target_of_unfit_match hpos hle hfit hcap, decodeMatch_wrapping habi hcap hpos hle,
    if_neg hpass, hzero, if_pos (Nat.zero_le _)]
  rfl

/-- The wrapping run copies a part of the match, or runs into the end of the buffer. -/
theorem not_agreesOnMatch (habi : Abi w input.length cap) (hpos : 1 ≤ offset)
    (hle : offset ≤ window.length) (hwindow : window.length ≤ cap)
    (hpass : ¬ cap < (window.length + (n + 4)) % 2 ^ w)
    (hfit : ¬ (synced ∧ window.length + (n + 4) ≤ cap)) (hmoves : (n + 4) % 2 ^ w ≠ 0) :
    ¬ AgreesOnMatch w input cap budget synced offset sp n window := by
  intro hagrees
  have hcopy := Lz77.length_copyBack hpos hle ((n + 4) % 2 ^ w)
  refine not_failed_of_written hwindow (Lz77.prefix_copyBack _ offset ((n + 4) % 2 ^ w))
    (by omega) ?_ fun tail hcap =>
      (hagrees tail hcap).trans (target_of_unfit_match hpos hle hfit hcap)
  intro tail hcap
  rw [decodeMatch_wrapping habi hcap hpos hle, if_neg hpass]
  by_cases hroom : (n + 4) % 2 ^ w ≤ tail.length
  · rw [if_pos hroom, ← hcopy]
    right
    constructor
    · omega
    · intro r hr
      exact (loop_keeps habi (by rw [List.length_drop]; omega) hr).1
  · rw [if_neg hroom]
    exact Or.inl ⟨_, rfl⟩

/-- The condition on a match is exact if it is for what follows. -/
theorem matchSafe_iff (habi : Abi w input.length cap) (safe : Bool → Nat → Bool)
    (hpos : 1 ≤ offset) (hle : offset ≤ window.length) (hwindow : window.length ≤ cap)
    (ih : ∀ synced (window : List UInt8), window.length ≤ cap →
      (safe synced window.length = true ↔ AgreesFrom w input cap budget synced sp window)) :
    (if cap < (window.length + (n + 4)) % 2 ^ w then true
      else if synced ∧ window.length + (n + 4) ≤ cap then safe true (window.length + (n + 4))
      else if (n + 4) % 2 ^ w = 0 then safe false window.length
      else false) = true ↔
    AgreesOnMatch w input cap budget synced offset sp n window := by
  by_cases hrefused : cap < (window.length + (n + 4)) % 2 ^ w
  · rw [if_pos hrefused]
    exact iff_of_true rfl (agreesOnMatch_of_refused habi hpos hle hrefused)
  rw [if_neg hrefused]
  by_cases hfit : synced ∧ window.length + (n + 4) ≤ cap
  · obtain ⟨rfl, hroom⟩ := hfit
    have hlen := Lz77.length_copyBack hpos hle (n + 4)
    rw [if_pos ⟨rfl, hroom⟩, agreesOnMatch_of_fit habi hpos hle hrefused hroom,
      ← ih true _ (by omega), hlen]
  rw [if_neg hfit]
  by_cases hzero : (n + 4) % 2 ^ w = 0
  · rw [if_pos hzero, agreesOnMatch_of_zero habi hpos hle hrefused hfit hzero]
    exact ih false window hwindow
  · rw [if_neg hzero]
    exact iff_of_false Bool.false_ne_true
      (not_agreesOnMatch habi hpos hle hwindow hrefused hfit hzero)

end Match

theorem wrapSafeReference_iff (habi : Abi w input.length cap) {budget : Nat}
    (ih : ∀ synced sp (window : List UInt8), sp ≤ input.length → window.length ≤ cap →
      input.length - sp < budget →
      (wrapSafeFrom w input.length cap budget synced (input.drop sp) window.length = true ↔
        AgreesFrom w input cap budget synced sp window))
    (synced : Bool) (t : UInt8) {sp : Nat} {window : List UInt8} (hsp : sp ≤ input.length)
    (hwindow : window.length ≤ cap) (hbudget : input.length - sp ≤ budget) :
    wrapSafeReference w cap (wrapSafeFrom w input.length cap budget) synced (t.toNat % 16)
        (input.drop sp) window.length = true ↔
      AgreesAfter w input cap budget synced t sp window := by
  by_cases hend : sp = input.length
  · have hnil : input.drop sp = [] := List.drop_eq_nil_of_le (by omega)
    simp only [hnil, wrapSafeReference, AgreesAfter, afterLiterals, if_pos hend,
      Outcome.done_bind, afterTurn, target]
    cases synced
    · simpa using exists_tail hwindow
    · simp
  have hlt : sp < input.length := by omega
  have hunbounded : Runs .unbounded input.length cap := runs_of_fits (Arith.fits_unbounded _)
  simp only [AgreesAfter, afterLiterals, if_neg hend, decodeReference_eq habi.runs t hlt,
    decodeReference_eq hunbounded t hlt]
  rcases hbytes : input.drop sp with _ | ⟨first, _ | ⟨second, bytes⟩⟩
  · have hnil := List.drop_eq_nil_iff.mp hbytes
    omega
  · simp [wrapSafeReference, afterTurn]
  · have hlen := congrArg List.length hbytes
    simp only [List.length_drop, List.length_cons] at hlen
    simp only [wrapSafeReference]
    by_cases hbad : first.toNat + 256 * second.toNat = 0 ∨
        window.length < first.toNat + 256 * second.toNat
    · simp only [if_pos hbad, Outcome.done_bind, afterTurn, target_failed, implies_true]
    simp only [if_neg hbad]
    rcases hfield : lengthField (t.toNat % 16) bytes with _ | ⟨n, k⟩
    · simp [afterTurn]
    · obtain ⟨-, hk⟩ := lengthField_le (low_le t) hfield
      have hrest : bytes.drop k = input.drop (sp + 2 + k) := by
        rw [← List.drop_drop, ← List.drop_drop, hbytes]
        rfl
      exact matchSafe_iff habi
        (fun synced dp => wrapSafeFrom w input.length cap budget synced (bytes.drop k) dp)
        (by omega) (by omega) hwindow fun synced window hw => by
          rw [hrest]
          exact ih synced _ window (by omega) hw (by omega)

/-! ### The literals of a turn -/

section Literals

variable {budget n sp : Nat} {synced : Bool} {t : UInt8} {window : List UInt8}

theorem refusesLiterals_mod (w n cap sp dp len : Nat) :
    refusesLiterals w n cap sp dp (len % 2 ^ w) = refusesLiterals w n cap sp dp len := by
  simp only [refusesLiterals, Nat.add_mod_mod]

/-- Wrapping makes a sum smaller, so it refuses no literals that fit. -/
theorem not_fit_of_refuses (h : refusesLiterals w input.length cap sp window.length n = true) :
    ¬ (sp + n ≤ input.length ∧ window.length + n ≤ cap) := by
  have hin := Nat.mod_le (sp + n) (2 ^ w)
  have hout := Nat.mod_le (window.length + n) (2 ^ w)
  simp only [refusesLiterals, Bool.or_eq_true, decide_eq_true_eq] at h
  omega

theorem target_of_unfit_literals
    (hfit : ¬ (synced ∧ sp + n ≤ input.length ∧ window.length + n ≤ cap)) {tail : List UInt8}
    (hcap : window.length + tail.length = cap) :
    target synced
      (decodeLiterals .unbounded input t sp n window.length (window ++ tail) >>=
        afterTurn (decodeTurn .unbounded input) budget) (window ++ tail) =
      .done (none, window ++ tail) := by
  refine target_of_failed fun hsynced => ?_
  have hshort : input.length < sp + n ∨ tail.length < n := by
    by_contra hnone
    exact hfit ⟨hsynced, by omega, by omega⟩
  rw [decodeLiterals_short t hshort (Arith.fits_unbounded _) (Arith.fits_unbounded _),
    Outcome.done_bind, afterTurn]

/-- Both runs refuse literals whose wrapped sums are too large. -/
theorem agreesOnLiterals_of_refused (habi : Abi w input.length cap) (hsp : sp ≤ input.length)
    (hrefused : refusesLiterals w input.length cap sp window.length n = true) :
    AgreesOnLiterals w input cap budget synced t sp n window := by
  intro tail hcap
  have hpow := habi.pow
  rw [target_of_unfit_literals (fun h => not_fit_of_refuses hrefused h.2) hcap]
  rw [← refusesLiterals_mod] at hrefused
  rw [decodeLiterals_wrapping_unfit habi hcap t hsp (Nat.mod_lt n (Nat.two_pow_pos w))
    (not_fit_of_refuses hrefused), if_pos hrefused, Outcome.done_bind, afterTurn]

theorem agreesOnLiterals_of_fit (habi : Abi w input.length cap) (hin : sp + n ≤ input.length)
    (hroom : window.length + n ≤ cap) :
    AgreesOnLiterals w input cap budget true t sp n window ↔
      AgreesAfter w input cap budget true t (sp + n) (window ++ (input.drop sp).take n) := by
  have hpow := habi.pow
  have hinput := habi.input
  have hexact : n % 2 ^ w = n := Nat.mod_eq_of_lt (by omega)
  have hlen := length_append_literals window hin
  rw [AgreesAfter, ← forall_tail_drop hlen]
  refine forall_congr' fun tail => forall_congr' fun hcap => ?_
  rw [hexact, decodeLiterals_wrapping_fit habi hcap t hin hroom,
    decodeLiterals_fit t hin (by omega) (Arith.fits_unbounded _) (Arith.fits_unbounded _), hlen]
  exact ⟨fun h _ => h, fun h => h hroom⟩

theorem agreesOnLiterals_of_zero (habi : Abi w input.length cap) (hsp : sp ≤ input.length)
    (hwindow : window.length ≤ cap)
    (hfit : ¬ (synced ∧ sp + n ≤ input.length ∧ window.length + n ≤ cap))
    (hzero : n % 2 ^ w = 0) :
    AgreesOnLiterals w input cap budget synced t sp n window ↔
      AgreesAfter w input cap budget false t sp window := by
  refine forall_congr' fun tail => forall_congr' fun hcap => ?_
  rw [target_of_unfit_literals hfit hcap, hzero,
    decodeLiterals_wrapping_fit habi hcap t (by omega) (by omega)]
  simp only [Nat.add_zero, List.take_zero, List.drop_zero, List.append_nil]
  rfl

/-- The wrapping run copies a part of the literals, or panics. -/
theorem not_agreesOnLiterals (habi : Abi w input.length cap) (hsp : sp ≤ input.length)
    (hwindow : window.length ≤ cap)
    (hpass : refusesLiterals w input.length cap sp window.length n ≠ true)
    (hfit : ¬ (synced ∧ sp + n ≤ input.length ∧ window.length + n ≤ cap))
    (hmoves : n % 2 ^ w ≠ 0) :
    ¬ AgreesOnLiterals w input cap budget synced t sp n window := by
  intro hagrees
  have hpow := habi.pow
  have hwritten := fun tail hcap =>
    (hagrees tail hcap).trans (target_of_unfit_literals hfit hcap)
  by_cases hroom : sp + n % 2 ^ w ≤ input.length ∧ window.length + n % 2 ^ w ≤ cap
  · have hlen := length_append_literals window hroom.1
    refine not_failed_of_written hwindow (List.prefix_append _ ((input.drop sp).take (n % 2 ^ w)))
      (by omega) (fun tail hcap => Or.inr ⟨by omega, fun r hr => ?_⟩) hwritten
    rw [decodeLiterals_wrapping_fit habi hcap t hroom.1 hroom.2, ← hlen] at hr
    exact loop_afterLiterals_keeps habi (by rw [hlen, List.length_drop]; omega) hroom.1 hr
  · obtain ⟨tail, hcap⟩ := exists_tail hwindow
    have hdone := hwritten tail hcap
    rw [← refusesLiterals_mod] at hpass
    rw [decodeLiterals_wrapping_unfit habi hcap t hsp (Nat.mod_lt n (Nat.two_pow_pos w)) hroom,
      if_neg hpass] at hdone
    cases hdone

/-- The condition on the literals is exact if it is for what follows. -/
theorem literalsSafe_iff (habi : Abi w input.length cap)
    (ih : ∀ synced sp (window : List UInt8), sp ≤ input.length → window.length ≤ cap →
      input.length - sp < budget →
      (wrapSafeFrom w input.length cap budget synced (input.drop sp) window.length = true ↔
        AgreesFrom w input cap budget synced sp window))
    (hsp : sp ≤ input.length) (hwindow : window.length ≤ cap)
    (hbudget : input.length - sp ≤ budget) :
    (if refusesLiterals w input.length cap sp window.length n then true
      else if synced ∧ sp + n ≤ input.length ∧ window.length + n ≤ cap then
        wrapSafeReference w cap (wrapSafeFrom w input.length cap budget) true (t.toNat % 16)
          ((input.drop sp).drop n) (window.length + n)
      else if n % 2 ^ w = 0 then
        wrapSafeReference w cap (wrapSafeFrom w input.length cap budget) false (t.toNat % 16)
          (input.drop sp) window.length
      else false) = true ↔
    AgreesOnLiterals w input cap budget synced t sp n window := by
  by_cases hrefused : refusesLiterals w input.length cap sp window.length n = true
  · rw [if_pos hrefused]
    exact iff_of_true rfl (agreesOnLiterals_of_refused habi hsp hrefused)
  rw [if_neg hrefused]
  by_cases hfit : synced ∧ sp + n ≤ input.length ∧ window.length + n ≤ cap
  · obtain ⟨rfl, hin, hroom⟩ := hfit
    have hlen := length_append_literals window hin
    rw [if_pos ⟨rfl, hin, hroom⟩, agreesOnLiterals_of_fit habi hin hroom, List.drop_drop, ← hlen]
    exact wrapSafeReference_iff habi ih true t hin (by omega) (by omega)
  rw [if_neg hfit]
  by_cases hzero : n % 2 ^ w = 0
  · rw [if_pos hzero, agreesOnLiterals_of_zero habi hsp hwindow hfit hzero]
    exact wrapSafeReference_iff habi ih false t hsp hwindow hbudget
  · rw [if_neg hzero]
    exact iff_of_false Bool.false_ne_true
      (not_agreesOnLiterals habi hsp hwindow hrefused hfit hzero)

end Literals

/-- **The condition is exact from any point of the input.** -/
theorem wrapSafeFrom_iff (habi : Abi w input.length cap) (budget : Nat) :
    ∀ (synced : Bool) (sp : Nat) (window : List UInt8), sp ≤ input.length →
      window.length ≤ cap → input.length - sp < budget →
      (wrapSafeFrom w input.length cap budget synced (input.drop sp) window.length = true ↔
        AgreesFrom w input cap budget synced sp window) := by
  have hpow := habi.pow
  have hin := habi.input
  have hout := habi.output
  have hunbounded : Runs .unbounded input.length cap := runs_of_fits (Arith.fits_unbounded _)
  induction budget with
  | zero => intro synced sp window _ _ hlt; omega
  | succ budget ih =>
    intro synced sp window hsp hwindow hbudget
    simp only [AgreesFrom, loop_succ]
    rcases hbytes : input.drop sp with _ | ⟨t, bytes⟩
    · simp only [wrapSafeFrom, decodeTurn_end hbytes, Outcome.done_bind, afterTurn, target]
      cases synced
      · simpa using exists_tail hwindow
      · simp
    · have hlen := congrArg List.length hbytes
      simp only [List.length_drop, List.length_cons] at hlen
      simp only [wrapSafeFrom, decodeTurn_eq habi.runs hbytes, decodeTurn_eq hunbounded hbytes]
      rcases hfield : lengthField (t.toNat / 16) bytes with _ | ⟨n, k⟩
      · simp only [Outcome.done_bind, afterTurn, target_failed, implies_true]
      · obtain ⟨-, hk⟩ := lengthField_le (high_le t) hfield
        have hrest : bytes.drop k = input.drop (sp + 1 + k) := by
          rw [← List.drop_drop, ← List.drop_drop, hbytes]
          rfl
        have hconsumed : input.length - (input.drop (sp + 1 + k)).length = sp + 1 + k := by
          rw [List.length_drop]
          omega
        simp only [hrest, hconsumed]
        exact literalsSafe_iff habi ih (by omega) hwindow (by omega)

/-- The two runs yield the same result exactly when their main loops do. -/
theorem sameResult_iff (habi : Abi w input.length cap) {window tail : List UInt8}
    (hcap : window.length + tail.length = cap) :
    (∃ r, lz4DecompressBlockWithPrefix (.wrapping w) input (window ++ tail) window.length =
        .done r ∧
      lz4DecompressBlockWithPrefix .unbounded input (window ++ tail) window.length = .done r) ↔
    loop (decodeTurn (.wrapping w) input) (input.length + 1)
        ⟨0, window.length, window ++ tail⟩ =
      loop (decodeTurn .unbounded input) (input.length + 1)
        ⟨0, window.length, window ++ tail⟩ := by
  have hpow := habi.pow
  have hout := habi.output
  have hhistory : window.length ≤ (window ++ tail).length := by
    rw [List.length_append]
    omega
  obtain ⟨⟨final, out⟩, hunbounded, hmeets⟩ := decodeLoop_meets hhistory
    (show NoOverflow .unbounded input _ from Arith.fits_unbounded _)
  have hposition : ∀ d, final = some d → window.length ≤ d ∧ d ≤ cap := by
    intro d hd
    have hbounds := hmeets.position hhistory hd
    rw [List.length_append, hcap] at hbounds
    exact hbounds
  rw [hunbounded, lz4DecompressBlockWithPrefix_eq hunbounded
    (fun d hd => ⟨(hposition d hd).1, Arith.fits_unbounded d⟩)]
  constructor
  · rintro ⟨r, hwrapping, hr⟩
    obtain ⟨⟨final', out'⟩, hloop, -⟩ := Outcome.bind_eq_done.mp hwrapping
    have hposition' : ∀ d, final' = some d → window.length ≤ d ∧ d ≤ cap :=
      (loop_keeps habi hcap hloop).2
    rw [lz4DecompressBlockWithPrefix_eq hloop (fun d hd =>
      ⟨(hposition' d hd).1, Nat.lt_of_le_of_lt (hposition' d hd).2 (by omega)⟩), ← hr] at hwrapping
    obtain ⟨hcount, rfl⟩ := Prod.mk.inj (Outcome.done.inj hwrapping)
    rw [hloop]
    match final, final', hcount with
    | none, none, _ => rfl
    | some d, some d', hcount =>
      have hle := (hposition d rfl).1
      have hle' := (hposition' d' rfl).1
      simp only [Option.map_some, Option.some.injEq] at hcount
      rw [show d' = d by omega]
  · intro hloop
    exact ⟨_, lz4DecompressBlockWithPrefix_eq hloop (fun d hd =>
      ⟨(hposition d hd).1, Nat.lt_of_le_of_lt (hposition d hd).2 (by omega)⟩), rfl⟩

/-- The run from the start of the input, for every window of the prefix. -/
theorem wrapSafe_iff (habi : Abi w input.length cap) {window : List UInt8}
    (hwindow : window.length ≤ cap) :
    wrapSafe w input cap window.length = true ↔
      AgreesFrom w input cap (input.length + 1) true 0 window := by
  have hiff := wrapSafeFrom_iff habi (input.length + 1) true 0 window (Nat.zero_le _) hwindow
    (by omega)
  rwa [List.drop_zero] at hiff

/-- On a safe block the wrapping run yields what the unbounded run yields. -/
theorem sameResult_of_wrapSafe {dst : List UInt8} {prefixLen : Nat}
    (habi : Abi w input.length dst.length) (hhistory : prefixLen ≤ dst.length)
    (hsafe : wrapSafe w input dst.length prefixLen = true) :
    ∃ r, lz4DecompressBlockWithPrefix (.wrapping w) input dst prefixLen = .done r ∧
      lz4DecompressBlockWithPrefix .unbounded input dst prefixLen = .done r := by
  have hlen : (dst.take prefixLen).length = prefixLen := by
    rw [List.length_take]
    omega
  have hsum : (dst.take prefixLen).length + (dst.drop prefixLen).length = dst.length := by
    rw [hlen, List.length_drop]
    omega
  have hiff := wrapSafe_iff habi (show (dst.take prefixLen).length ≤ dst.length by omega)
  rw [hlen] at hiff
  have hsame := (sameResult_iff habi hsum).mpr (hiff.mp hsafe _ hsum)
  rwa [List.take_append_drop, hlen] at hsame

end Wrap

/-- **The decoder on wrapping words.** The run neither panics nor differs from the
    run over unbounded integers, whatever the buffer holds, exactly when the block
    is `wrapSafe`. -/
theorem lz4DecompressBlockWithPrefix_wrapping_iff (w : Nat) (input : List UInt8)
    (cap prefixLen : Nat) (hw : 8 ≤ w) (hinput : input.length ≤ 2 ^ (w - 1) - 1)
    (hcap : cap ≤ 2 ^ (w - 1) - 1) (hhistory : prefixLen ≤ cap) :
    (∀ dst : List UInt8, dst.length = cap → ∃ r,
      lz4DecompressBlockWithPrefix (.wrapping w) input dst prefixLen = .done r ∧
      lz4DecompressBlockWithPrefix .unbounded input dst prefixLen = .done r) ↔
    wrapSafe w input cap prefixLen = true := by
  have hpos : 0 < 2 ^ (w - 1) := Nat.two_pow_pos _
  have habi : Abi w input.length cap := ⟨hw, by omega, by omega⟩
  constructor
  · intro h
    have hlen : (List.replicate prefixLen (0 : UInt8)).length = prefixLen := List.length_replicate
    have hroom : (List.replicate prefixLen (0 : UInt8)).length ≤ cap := by omega
    have hiff := wrapSafe_iff habi hroom
    rw [hlen] at hiff
    rw [hiff]
    intro tail hsum
    have hsame := h (List.replicate prefixLen 0 ++ tail) (by rw [List.length_append, hsum])
    rw [← hlen] at hsame
    exact (sameResult_iff habi hsum).mp (by simpa only [List.length_replicate] using hsame)
  · rintro h dst rfl
    exact sameResult_of_wrapSafe habi hhistory h

/-- The condition on a block with a history and a match that overlaps itself. -/
theorem lz4DecompressBlockWithPrefix_wrapping_iff_small :
    (∀ dst : List UInt8, dst.length = 9 → ∃ r,
      lz4DecompressBlockWithPrefix (.wrapping 32) [0x12, 9, 3, 0] dst 2 = .done r ∧
      lz4DecompressBlockWithPrefix .unbounded [0x12, 9, 3, 0] dst 2 = .done r) ↔
    wrapSafe 32 [0x12, 9, 3, 0] 9 2 = true :=
  lz4DecompressBlockWithPrefix_wrapping_iff 32 [0x12, 9, 3, 0] 9 2 (by decide) (by decide)
    (by decide) (by decide)

/-! ### A block that is not safe -/

def longLiterals (count : Nat) (literals : List UInt8) : List UInt8 :=
  0xf0 :: (List.replicate count 255 ++ 0 :: literals)

theorem length_longLiterals (count : Nat) (literals : List UInt8) :
    (longLiterals count literals).length = count + 2 + literals.length := by
  simp only [longLiterals, List.length_cons, List.length_append, List.length_replicate]
  omega

theorem decodeTurn_longLiterals {A : Arith} {count cap : Nat} {literals output : List UInt8}
    (hruns : Runs A (longLiterals count literals).length cap) (dp : Nat) :
    decodeTurn A (longLiterals count literals) ⟨0, dp, output⟩ =
      decodeLiterals A (longLiterals count literals) 0xf0 (count + 2)
        (A.norm (15 + 255 * count)) dp output := by
  have hfield : lengthField ((0xf0 : UInt8).toNat / 16)
      (List.replicate count 255 ++ 0 :: literals) = some (15 + 255 * count, count + 1) :=
    extension_replicate 15 count (by decide) literals
  rw [decodeTurn_eq hruns (List.drop_zero ..), hfield]
  simp only
  congr 1
  omega

/-- When the sum of the length bytes wraps to the literals that are there, the
    wrapping run accepts the block and the unbounded run refuses it. -/
theorem decode_longLiterals {w count : Nat} {literals dst : List UInt8}
    (habi : Abi w (longLiterals count literals).length dst.length)
    (hwraps : (15 + 255 * count) % 2 ^ w = literals.length)
    (hlong : literals.length < 15 + 255 * count) (hroom : literals.length = dst.length) :
    lz4DecompressBlockWithPrefix (.wrapping w) (longLiterals count literals) dst 0 =
      .done (some literals.length, literals) ∧
    lz4DecompressBlockWithPrefix .unbounded (longLiterals count literals) dst 0 =
      .done (none, dst) := by
  have hpow := habi.pow
  have hin := habi.input
  have hlen := length_longLiterals count literals
  have hdrop : (longLiterals count literals).drop (count + 2) = literals := by
    rw [longLiterals, List.drop_succ_cons, ← List.drop_drop,
      List.drop_left' (List.length_replicate ..)]
    rfl
  constructor
  · have hin : count + 2 + literals.length ≤ (longLiterals count literals).length := by omega
    have hout : literals.length ≤ dst.length := by omega
    have hsp : (Arith.wrapping w).Fits (count + 2 + literals.length) :=
      Arith.fits_wrapping.mpr (by omega)
    have hdp : (Arith.wrapping w).Fits (([] : List UInt8).length + literals.length) :=
      Arith.fits_wrapping.mpr (by simp only [List.length_nil]; omega)
    have hturn := decodeLiterals_fit 0xf0 hin hout hsp hdp
    rw [if_pos (by omega), hdrop, List.take_of_length_le (Nat.le_refl _)] at hturn
    have hexit : decodeTurn (.wrapping w) (longLiterals count literals) ⟨0, 0, dst⟩ =
        .done (.exit (some literals.length, literals)) := by
      rw [decodeTurn_longLiterals habi.runs, Arith.norm, hwraps]
      simpa [hroom] using hturn
    exact lz4DecompressBlockWithPrefix_eq (loop_exit _ hexit) (fun d hd => by
      obtain rfl := Option.some.inj hd
      exact ⟨Nat.zero_le _, Arith.fits_wrapping.mpr (by omega)⟩)
  · have hexit : decodeTurn .unbounded (longLiterals count literals) ⟨0, 0, dst⟩ =
        .done (.exit (none, dst)) := by
      have hruns : Runs .unbounded (longLiterals count literals).length dst.length :=
        runs_of_fits (Arith.fits_unbounded _)
      have hshort : (longLiterals count literals).length < count + 2 + (15 + 255 * count) ∨
          dst.length < 15 + 255 * count := by omega
      have hsp : Arith.unbounded.Fits (count + 2 + (15 + 255 * count)) := Arith.fits_unbounded _
      have hdp : Arith.unbounded.Fits (([] : List UInt8).length + (15 + 255 * count)) :=
        Arith.fits_unbounded _
      rw [decodeTurn_longLiterals hruns]
      exact decodeLiterals_short 0xf0 hshort hsp hdp
    exact lz4DecompressBlockWithPrefix_eq (loop_exit _ hexit) (fun d hd => by simp at hd)

/-- On a 32-bit ABI 16843009 bytes of 255 add up to a length of 14. -/
theorem lz4DecompressBlockWithPrefix_wraps :
    (longLiterals 16843009 (List.replicate 14 7)).length ≤ 2 ^ (32 - 1) - 1 ∧
    lz4DecompressBlockWithPrefix (.wrapping 32) (longLiterals 16843009 (List.replicate 14 7))
      (List.replicate 14 0) 0 = .done (some 14, List.replicate 14 7) ∧
    lz4DecompressBlockWithPrefix .unbounded (longLiterals 16843009 (List.replicate 14 7))
      (List.replicate 14 0) 0 = .done (none, List.replicate 14 0) := by
  have hlen := length_longLiterals 16843009 (List.replicate 14 7)
  have hliterals : (List.replicate 14 (7 : UInt8)).length = 14 := rfl
  have hdst : (List.replicate 14 (0 : UInt8)).length = 14 := rfl
  rw [hliterals] at hlen
  refine ⟨by omega, ?_⟩
  exact decode_longLiterals ⟨by decide, by omega, by decide⟩ (by decide) (by decide) rfl

end ImgTools.Lz4
