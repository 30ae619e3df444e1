import ImgTools.Lz4Encoder
import Mathlib.Data.List.MinMax

/-!
# The search for a match

`lz4_find_match` walks a chain of candidates and keeps the longest match. Before it
compares a candidate in full it looks at the one byte that would make the match
longer than the best one so far. `plainSearch` is the search without that test: it
compares every candidate of the chain, and takes the first of the longest matches.
Both return the same match, for every first candidate and every chain.
-/

namespace ImgTools.Lz4

open Exec

/-! ### Matches -/

/-- The `length` bytes at `pos` repeat those at `start`, inside the window and the limit. -/
structure Repeats (input : List UInt8) (limit start pos length : Nat) : Prop where
  before : start < pos
  near : pos - start ≤ lz4MaxOffset
  long : lz4MinMatch ≤ length
  inside : pos + length ≤ limit
  same : ∀ j, j < length → input[start + j]? = input[pos + j]?

/-- A repetition that cannot be extended forwards. -/
structure MaximalMatch (input : List UInt8) (limit start pos length : Nat) : Prop
    extends Repeats input limit start pos length where
  maximal : pos + length = limit ∨ input[start + length]? ≠ input[pos + length]?

/-- The candidates that a search at `pos` looks at, for the given number of attempts: the
    walk along the chain ends where a slot is empty, and at the first candidate that is
    not before `pos` or too far from it. -/
def candidates (pos : Nat) (chain : Slot → UInt32) : Nat → Nat → List Nat
  | 0, _ => []
  | attempts + 1, candidate =>
    if candidate = noPosition.toNat ∨ pos ≤ candidate ∨ lz4MaxOffset < pos - candidate then []
    else candidate :: candidates pos chain attempts (chain (UInt16.ofNat candidate)).toNat

def matchesOf (input : List UInt8) (limit pos : Nat) (starts : List Nat) : List (Nat × Nat) :=
  (starts.map fun start => (start, Lz77.agreement input limit start pos)).filter
    fun best => lz4MinMatch ≤ best.2

/-- The plain search: the first of the longest matches. -/
def plainSearch (input : List UInt8) (pos limit candidate : Nat) (chain : Slot → UInt32) :
    Option (Nat × Nat) :=
  (matchesOf input limit pos (candidates pos chain lz4HcAttempts candidate)).argmax Prod.snd

def Found (input : List UInt8) (limit pos : Nat) (best : Nat × Nat) : Prop :=
  best.2 = 0 ∨ Repeats input limit best.1 pos best.2

section Candidates

variable {input : List UInt8} {limit pos : Nat} {chain : Slot → UInt32}

theorem mem_candidates {attempts candidate start : Nat}
    (h : start ∈ candidates pos chain attempts candidate) :
    start < pos ∧ pos - start ≤ lz4MaxOffset := by
  induction attempts generalizing candidate with
  | zero => cases h
  | succ attempts ih =>
    unfold candidates at h
    split at h
    · cases h
    · next hnear =>
      rcases List.mem_cons.mp h with rfl | h
      · omega
      · exact ih h

/-- A candidate that agrees with four bytes or more is a match that cannot be extended. -/
theorem maximalMatch_of_agreement {start : Nat} (hpos : pos ≤ limit) (hbefore : start < pos)
    (hnear : pos - start ≤ lz4MaxOffset)
    (hlong : lz4MinMatch ≤ Lz77.agreement input limit start pos) :
    MaximalMatch input limit start pos (Lz77.agreement input limit start pos) where
  before := hbefore
  near := hnear
  long := hlong
  inside := Lz77.agreement_inside hpos
  same := fun _ hj => Lz77.getElem?_of_lt_agreement hj
  maximal := by
    have hinside : pos + Lz77.agreement input limit start pos ≤ limit :=
      Lz77.agreement_inside hpos
    by_cases hend : pos + Lz77.agreement input limit start pos = limit
    · exact Or.inl hend
    · refine Or.inr fun hbyte => ?_
      have hmore := (Lz77.lt_agreement_iff (Nat.le_refl _)).mpr ⟨by omega, hbyte⟩
      exact Nat.lt_irrefl _ hmore

/-- What the plain search returns is a match that cannot be extended. -/
theorem plainSearch_maximalMatch {candidate start length : Nat} (hpos : pos ≤ limit)
    (h : plainSearch input pos limit candidate chain = some (start, length)) :
    MaximalMatch input limit start pos length := by
  obtain ⟨hmem, hlong⟩ := List.mem_filter.mp (List.argmax_mem h)
  obtain ⟨c, hc, heq⟩ := List.mem_map.mp hmem
  obtain ⟨rfl, rfl⟩ := Prod.mk.inj heq
  obtain ⟨hbefore, hnear⟩ := mem_candidates hc
  exact maximalMatch_of_agreement hpos hbefore hnear (of_decide_eq_true hlong)

end Candidates

/-! ### Comparing words and bytes -/

theorem readU32Le_of_le {data : List UInt8} {i : Nat} (h : i + 4 ≤ data.length) :
    readU32Le data i = .done (UInt32.ofNat (LittleEndian.value ((data.drop i).take 4))) := by
  have hdrop : data.drop i =
      data[i] :: data[i + 1] :: data[i + 2] :: data[i + 3] :: data.drop (i + 4) := by
    rw [List.drop_eq_getElem_cons (show i < data.length by omega),
      List.drop_eq_getElem_cons (show i + 1 < data.length by omega),
      List.drop_eq_getElem_cons (show i + 1 + 1 < data.length by omega),
      List.drop_eq_getElem_cons (show i + 1 + 1 + 1 < data.length by omega)]
  simp only [readU32Le, index_of_lt (show i < data.length by omega),
    index_of_lt (show i + 1 < data.length by omega),
    index_of_lt (show i + 2 < data.length by omega),
    index_of_lt (show i + 3 < data.length by omega), Outcome.done_bind, hdrop]
  rfl

theorem take_eq_of_readU32Le {data : List UInt8} {a b : Nat} (ha : a + 4 ≤ data.length)
    (hb : b + 4 ≤ data.length) (h : readU32Le data a = readU32Le data b) :
    (data.drop a).take 4 = (data.drop b).take 4 := by
  have hlen : ∀ i, i + 4 ≤ data.length → ((data.drop i).take 4).length = 4 := by
    intro i hi
    rw [List.length_take, List.length_drop]
    omega
  have hlt : ∀ i, i + 4 ≤ data.length → LittleEndian.value ((data.drop i).take 4) < 2 ^ 32 := by
    intro i hi
    have hvalue := LittleEndian.value_lt ((data.drop i).take 4)
    rwa [hlen i hi] at hvalue
  rw [readU32Le_of_le ha, readU32Le_of_le hb] at h
  have hword := congrArg UInt32.toNat (Outcome.done.inj h)
  rw [UInt32.toNat_ofNat_of_lt' (hlt a ha), UInt32.toNat_ofNat_of_lt' (hlt b hb)] at hword
  exact LittleEndian.value_inj (by rw [hlen a ha, hlen b hb]) hword

/-- Words are equal exactly when their four bytes are. -/
theorem readU32Le_eq_iff {data : List UInt8} {a b : Nat} (ha : a + 4 ≤ data.length)
    (hb : b + 4 ≤ data.length) :
    readU32Le data a = readU32Le data b ↔ ∀ j, j < 4 → data[a + j]? = data[b + j]? := by
  constructor
  · intro h j hj
    have hget := congrArg (fun bytes : List UInt8 => bytes[j]?) (take_eq_of_readU32Le ha hb h)
    simpa only [List.getElem?_take_of_lt hj, List.getElem?_drop] using hget
  · intro h
    have htake : (data.drop a).take 4 = (data.drop b).take 4 := by
      apply List.ext_getElem?
      intro j
      by_cases hj : j < 4
      · rw [List.getElem?_take_of_lt hj, List.getElem?_take_of_lt hj, List.getElem?_drop,
          List.getElem?_drop, h j hj]
      · rw [List.getElem?_take_eq_none (by omega), List.getElem?_take_eq_none (by omega)]
    rw [readU32Le_of_le ha, readU32Le_of_le hb, htake]

section Search

variable {input : List UInt8} {limit pos : Nat} {s : Search}

theorem four_le_agreement_iff (hlimit : limit ≤ input.length) (hpos : pos + lz4MinMatch ≤ limit)
    {start : Nat} (hbefore : start < pos) :
    lz4MinMatch ≤ Lz77.agreement input limit start pos ↔
      readU32Le input start = readU32Le input pos := by
  have hinside : pos + 4 ≤ input.length := hpos.trans hlimit
  rw [readU32Le_eq_iff (by omega) hinside]
  constructor
  · intro h j hj
    exact Lz77.getElem?_of_lt_agreement (Nat.lt_of_lt_of_le hj h)
  · intro h
    exact Lz77.le_agreement hpos h

/-- **The shortcut is lossless**: it reads inside the input, and a candidate with a longer
    match passes it. -/
theorem worthIt_spec (hlimit : limit ≤ input.length) (hbefore : s.candidate < pos) :
    ∃ worth, worthIt input pos limit s = .done worth ∧
      (s.bestLength < Lz77.agreement input limit s.candidate pos → worth = true) := by
  unfold worthIt
  by_cases hshort : s.bestLength < lz4MinMatch
  · exact ⟨true, if_pos hshort, fun _ => rfl⟩
  rw [if_neg hshort]
  by_cases hinside : pos + s.bestLength < limit ∧ s.candidate + s.bestLength < input.length
  · have hlt : pos + s.bestLength < input.length := Nat.lt_of_lt_of_le hinside.1 hlimit
    rw [if_pos hinside, index_of_lt hinside.2, Outcome.done_bind, index_of_lt hlt]
    refine ⟨_, rfl, fun hlonger => ?_⟩
    have hbyte := Lz77.getElem?_of_lt_agreement hlonger
    rw [List.getElem?_eq_getElem hinside.2, List.getElem?_eq_getElem hlt] at hbyte
    exact beq_iff_eq.mpr (Option.some.inj hbyte)
  · refine ⟨false, if_neg hinside, fun hlonger => ?_⟩
    have hmore := ((Lz77.lt_agreement_iff (Nat.le_of_lt hlonger)).mp hlonger).1
    exact absurd ⟨hmore, by omega⟩ hinside

/-- The loop that extends a match forwards compares in full. -/
theorem extend_eq (hlimit : limit ≤ input.length) {start : Nat} (hbefore : start < pos)
    (hlong : lz4MinMatch ≤ Lz77.agreement input limit start pos) :
    loop (extendTurn input pos limit start) (limit + 1) lz4MinMatch =
      .done (Lz77.agreement input limit start pos) := by
  refine loop_eq (extendTurn input pos limit start)
    (fun length => length ≤ Lz77.agreement input limit start pos) (fun length => limit - length)
    (fun _ => Lz77.agreement input limit start pos) ?_ (limit + 1) lz4MinMatch hlong (by omega)
  intro length hle
  have hextends := Lz77.lt_agreement_iff hle
  unfold extendTurn
  by_cases hinside : pos + length < limit
  · have hlt : pos + length < input.length := Nat.lt_of_lt_of_le hinside hlimit
    have hlt' : start + length < input.length := by omega
    rw [if_pos hinside, index_of_lt hlt', Outcome.done_bind, index_of_lt hlt, Outcome.done_bind]
    rw [List.getElem?_eq_getElem hlt', List.getElem?_eq_getElem hlt, Option.some_inj] at hextends
    by_cases hbyte : input[start + length] = input[pos + length]
    · rw [if_pos hbyte]
      exact Or.inl ⟨_, rfl, hextends.mpr ⟨hinside, hbyte⟩, by omega, rfl⟩
    · have hend : length = Lz77.agreement input limit start pos :=
        Nat.le_antisymm hle (Nat.not_lt.mp fun hlt => hbyte (hextends.mp hlt).2)
      rw [if_neg hbyte, ← hend]
      exact Or.inr rfl
  · have hend : length = Lz77.agreement input limit start pos :=
      Nat.le_antisymm hle (Nat.not_lt.mp fun hlt => hinside (hextends.mp hlt).1)
    rw [if_neg hinside, ← hend]
    exact Or.inr rfl

def keepLonger (input : List UInt8) (limit pos : Nat) (best : Nat × Nat) (start : Nat) :
    Nat × Nat :=
  let length := Lz77.agreement input limit start pos
  if lz4MinMatch ≤ length ∧ best.2 < length then (start, length) else best

/-- A candidate is handled as if it were compared in full. -/
theorem tryCandidate_eq (hlimit : limit ≤ input.length) (hpos : pos + lz4MinMatch ≤ limit)
    {probe : UInt32} (hprobe : readU32Le input pos = .done probe) (hbefore : s.candidate < pos) :
    tryCandidate input pos limit probe s =
      .done (keepLonger input limit pos (s.bestStart, s.bestLength) s.candidate) := by
  obtain ⟨worth, hworth, hlonger⟩ := worthIt_spec hlimit hbefore
  have hwords := four_le_agreement_iff hlimit hpos hbefore
  have hfour : s.candidate + 4 ≤ input.length := by
    unfold lz4MinMatch at hpos
    omega
  unfold keepLonger
  rw [tryCandidate, hworth, Outcome.done_bind]
  cases worth with
  | false =>
    have hshort : ¬ (lz4MinMatch ≤ Lz77.agreement input limit s.candidate pos ∧
        s.bestLength < Lz77.agreement input limit s.candidate pos) := by
      rintro ⟨-, hlt⟩
      cases hlonger hlt
    rw [if_neg hshort]
    rfl
  | true =>
    rw [if_pos rfl, readU32Le_of_le hfour, Outcome.done_bind]
    rw [readU32Le_of_le hfour, hprobe, Outcome.done.injEq] at hwords
    by_cases hword : UInt32.ofNat (LittleEndian.value ((input.drop s.candidate).take 4)) = probe
    · have hlong := hwords.mpr hword
      rw [if_pos hword, extend_eq hlimit hbefore hlong, Outcome.done_bind]
      by_cases hlt : s.bestLength < Lz77.agreement input limit s.candidate pos
      · rw [if_pos hlt, if_pos ⟨hlong, hlt⟩]
        rfl
      · rw [if_neg hlt, if_neg fun h => hlt h.2]
        rfl
    · rw [if_neg hword, if_neg fun h => hword (hwords.mp h.1)]
      rfl

/-- The walk over the chain keeps the longest of the candidates. -/
theorem loop_findTurn (hlimit : limit ≤ input.length) (hpos : pos + lz4MinMatch ≤ limit)
    {probe : UInt32} (hprobe : readU32Le input pos = .done probe) (chain : Slot → UInt32)
    (candidate : Nat) :
    loop (findTurn input pos limit chain probe) (lz4HcAttempts + 1) ⟨candidate, 0, 0, 0⟩ =
      .done ((candidates pos chain lz4HcAttempts candidate).foldl (keepLonger input limit pos)
        (0, 0)) := by
  refine loop_eq (findTurn input pos limit chain probe) (fun s => s.attempts ≤ lz4HcAttempts)
    (fun s => lz4HcAttempts - s.attempts)
    (fun s => (candidates pos chain (lz4HcAttempts - s.attempts) s.candidate).foldl
      (keepLonger input limit pos) (s.bestStart, s.bestLength)) ?_ (lz4HcAttempts + 1)
    ⟨candidate, 0, 0, 0⟩ (Nat.zero_le _) (Nat.lt_succ_self _)
  intro s hattempts
  unfold findTurn
  rcases Nat.eq_or_lt_of_le hattempts with hlast | hmore
  · rw [if_pos (Or.inr (Nat.le_of_eq hlast.symm)), hlast, Nat.sub_self]
    exact Or.inr rfl
  obtain ⟨left, hleft⟩ : ∃ left, lz4HcAttempts - s.attempts = left + 1 :=
    ⟨lz4HcAttempts - s.attempts - 1, by omega⟩
  have hleft' : lz4HcAttempts - (s.attempts + 1) = left := by omega
  by_cases hend : s.candidate = noPosition.toNat
  · rw [if_pos (Or.inl hend), hleft, candidates, if_pos (Or.inl hend)]
    exact Or.inr rfl
  rw [if_neg (not_or.mpr ⟨hend, Nat.not_le.mpr hmore⟩)]
  by_cases hfar : pos ≤ s.candidate ∨ lz4MaxOffset < pos - s.candidate
  · rw [if_pos hfar, hleft, candidates, if_pos (Or.inr hfar)]
    exact Or.inr rfl
  · have hbefore : s.candidate < pos := Nat.not_le.mp fun hle => hfar (Or.inl hle)
    rw [if_neg hfar, tryCandidate_eq hlimit hpos hprobe hbefore, hleft, candidates,
      if_neg (not_or.mpr ⟨hend, hfar⟩)]
    refine Or.inl ⟨_, rfl, hmore, by simp only; omega, ?_⟩
    simp only [hleft', List.foldl_cons]
    rfl

end Search

/-! ### The best match -/

section Best

variable {input : List UInt8} {limit pos : Nat}

def asMatch (best : Nat × Nat) : Option (Nat × Nat) :=
  if lz4MinMatch ≤ best.2 then some best else none

theorem Found.keepLonger {best : Nat × Nat} {start : Nat} (h : Found input limit pos best)
    (hpos : pos ≤ limit) (hbefore : start < pos) (hnear : pos - start ≤ lz4MaxOffset) :
    Found input limit pos (Lz4.keepLonger input limit pos best start) := by
  simp only [Lz4.keepLonger]
  split
  · next hlonger =>
    exact Or.inr (maximalMatch_of_agreement hpos hbefore hnear hlonger.1).toRepeats
  · exact h

/-- One candidate more: keeping the longer match is a step of `argmax`. -/
theorem argAux_asMatch {best : Nat × Nat} (h : Found input limit pos best) {start : Nat}
    (hlong : lz4MinMatch ≤ Lz77.agreement input limit start pos) :
    List.argAux (fun b c => c.2 < b.2) (asMatch best)
        (start, Lz77.agreement input limit start pos) =
      asMatch (keepLonger input limit pos best start) := by
  simp only [keepLonger]
  rcases h with hnone | hrepeats
  · have hlt : best.2 < Lz77.agreement input limit start pos := by
      rw [hnone]
      exact Nat.lt_of_lt_of_le (by decide) hlong
    have hshort : ¬ lz4MinMatch ≤ best.2 := by
      rw [hnone]
      decide
    rw [if_pos ⟨hlong, hlt⟩, asMatch, if_neg hshort, asMatch, if_pos hlong]
    rfl
  · rw [asMatch, if_pos hrepeats.long]
    by_cases hlt : best.2 < Lz77.agreement input limit start pos
    · rw [if_pos ⟨hlong, hlt⟩, asMatch, if_pos hlong]
      exact if_pos hlt
    · rw [if_neg fun h => hlt h.2, asMatch, if_pos hrepeats.long]
      exact if_neg hlt

/-- Keeping the longer match, candidate after candidate, finds the first longest one. -/
theorem asMatch_foldl {starts : List Nat} (hpos : pos ≤ limit)
    (hstarts : ∀ start ∈ starts, start < pos ∧ pos - start ≤ lz4MaxOffset) {best : Nat × Nat}
    (h : Found input limit pos best) :
    asMatch (starts.foldl (keepLonger input limit pos) best) =
      (matchesOf input limit pos starts).foldl (List.argAux fun b c => c.2 < b.2)
        (asMatch best) := by
  induction starts generalizing best with
  | nil => rfl
  | cons start starts ih =>
    obtain ⟨hbefore, hnear⟩ := hstarts start List.mem_cons_self
    have hrest := ih (fun s hs => hstarts s (List.mem_cons_of_mem start hs))
      (h.keepLonger hpos hbefore hnear)
    rw [List.foldl_cons, hrest]
    unfold matchesOf
    rw [List.map_cons, List.filter_cons]
    by_cases hlong : lz4MinMatch ≤ Lz77.agreement input limit start pos
    · rw [if_pos (decide_eq_true hlong), List.foldl_cons, argAux_asMatch h hlong]
    · rw [if_neg fun h => hlong (of_decide_eq_true h)]
      simp only [keepLonger]
      rw [if_neg fun h => hlong h.1]

end Best

/-! ### The whole search -/

section Whole

variable {input : List UInt8} {limit pos : Nat}

/-- The search returns what the plain search returns. -/
theorem lz4FindMatch_eq (hlimit : limit ≤ input.length) (hpos : pos + lz4MinMatch ≤ limit)
    (candidate : Nat) (chain : Slot → UInt32) :
    lz4FindMatch input pos limit candidate chain =
      .done (plainSearch input pos limit candidate chain) := by
  have hread := readU32Le_of_le (hpos.trans hlimit)
  have hstarts : ∀ start ∈ candidates pos chain lz4HcAttempts candidate,
      start < pos ∧ pos - start ≤ lz4MaxOffset := fun _ hstart => mem_candidates hstart
  have hnothing : Found input limit pos (0, 0) := Or.inl rfl
  have hbest := asMatch_foldl (Nat.le_of_add_right_le hpos) hstarts hnothing
  rw [lz4FindMatch, hread, Outcome.done_bind, loop_findTurn hlimit hpos hread, Outcome.done_bind]
  unfold asMatch at hbest
  exact (apply_ite Outcome.done _ _ _).symm.trans (congrArg Outcome.done hbest)

/-- A position that the main loop stands at has room for a match. -/
theorem minMatch_le_limit {i : Nat} (h : i + lz4MfLimit ≤ input.length) :
    i + lz4MinMatch ≤ input.length - lz4LastLiterals := by
  unfold lz4MfLimit at h
  unfold lz4MinMatch lz4LastLiterals
  omega

/-- **The search is the plain search.** For every position the main loop may stand at, every
    first candidate and every content of the chain table, the search ends without an
    access out of range and returns the first longest match of the chain; what it returns
    lies in the window and the limit and cannot be extended. -/
theorem lz4FindMatch_plain (input : List UInt8) (i candidate : Nat) (chain : Slot → UInt32)
    (hroom : i + lz4MfLimit ≤ input.length) :
    lz4FindMatch input i (input.length - lz4LastLiterals) candidate chain =
        .done (plainSearch input i (input.length - lz4LastLiterals) candidate chain) ∧
      ∀ start length,
        lz4FindMatch input i (input.length - lz4LastLiterals) candidate chain =
          .done (some (start, length)) →
        MaximalMatch input (input.length - lz4LastLiterals) start i length := by
  have hpos := minMatch_le_limit hroom
  have hplain := lz4FindMatch_eq (Nat.sub_le _ _) hpos candidate chain
  refine ⟨hplain, ?_⟩
  intro start length hfound
  have hsome := Outcome.done.inj (hplain.symm.trans hfound)
  exact plainSearch_maximalMatch (Nat.le_of_add_right_le hpos) hsome

/-- A chain that leads back to its first candidate for ever. -/
theorem lz4FindMatch_plain_cycle :
    lz4FindMatch [1, 2, 3, 4, 1, 2, 3, 4, 1, 5, 6, 7, 8, 9, 10, 11] 4 11 0 (fun _ => 0) =
      .done (some (0, 5)) :=
  (lz4FindMatch_plain [1, 2, 3, 4, 1, 2, 3, 4, 1, 5, 6, 7, 8, 9, 10, 11] 4 0 (fun _ => 0)
    (by decide)).1.trans (by decide +kernel)

end Whole

end ImgTools.Lz4
