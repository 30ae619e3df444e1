import ImgTools.ChunkReader
import ImgTools.Slice

/-!
# The xz and bzip2 expanders

`imageforge_xz_decompress` and `imageforge_bzip2_decompress` of `imageforge_core.rs`.
The decoders are those of third parties: a `Decoder` is given, and the results rest on
what it delivers for a source. The sources are in memory, so that no call of a decoder
is interrupted. Both expanders follow one protocol, `BoundedBuffer`,
though they look at the capacity at different moments: xz once everything has been
read, bzip2 after every chunk.
-/

namespace ImgTools

open Exec

/-- A decoder of a third party: made for a source in memory, then read. -/
structure Decoder (ε R : Type) where
  new : List UInt8 → R
  read : R → Except ε (List UInt8) × R

variable {ε R : Type}

/-- The statements that end both expanders. -/
def copyExpanded (expanded dst : List UInt8) : Outcome (Int × List UInt8) := do
  if expanded.isEmpty then return (expanded.length, dst)
  let dst ← copyFromSlice dst 0 expanded.length expanded
  return (expanded.length, dst)

def imageforgeXzDecompress (decoder : Decoder ε R) (budget : Nat) (src dst : List UInt8) :
    Outcome (Int × List UInt8) := do
  let (clean, expanded) ← readToEnd decoder.read budget (decoder.new src)
  if clean = false then return (-1, dst)
  if dst.length < expanded.length then return (-2, dst)
  copyExpanded expanded dst

def bzip2HeaderOk (input : List UInt8) : Bool :=
  10 ≤ input.length && input[0]? == some 0x42 && input[1]? == some 0x5a &&
    input[2]? == some 0x68 && input[3]?.any (fun digit => 0x31 ≤ digit && digit ≤ 0x39) &&
    (input.take 10).drop 4 == [0x31, 0x41, 0x59, 0x26, 0x53, 0x59]

def chunkLength : Nat := 64 * 1024

structure Bzip2State (R : Type) where
  reader : R
  chunk : List UInt8
  expanded : List UInt8

def fill (buffer bytes : List UInt8) : List UInt8 :=
  bytes.take buffer.length ++ buffer.drop bytes.length

/-- One turn of the loop; it leaves with the code to return, if there is one, and the
    accumulator. -/
def bzip2Turn (read : R → Except ε (List UInt8) × R) (dstCap : Nat) (s : Bzip2State R) :
    Outcome (Turn (Bzip2State R) (Option Int × List UInt8)) := do
  match read s.reader with
  | (.ok [], _) => return .exit (none, s.expanded)
  | (.ok (b :: bs), reader) =>
    let chunk := fill s.chunk (b :: bs)
    let written ← slice chunk 0 (b :: bs).length
    let expanded := s.expanded ++ written
    if dstCap < expanded.length then return .exit (some (-2), expanded)
    return .next ⟨reader, chunk, expanded⟩
  | (.error _, _) => return .exit (some (-1), s.expanded)

def Bzip2State.start (reader : R) : Bzip2State R := ⟨reader, List.replicate chunkLength 0, []⟩

def imageforgeBzip2Decompress (decoder : Decoder ε R) (budget : Nat) (src dst : List UInt8) :
    Outcome (Int × List UInt8) := do
  if bzip2HeaderOk src = false then return (-1, dst)
  match ← loop (bzip2Turn decoder.read dst.length) budget (.start (decoder.new src)) with
  | (some code, _) => return (code, dst)
  | (none, expanded) => copyExpanded expanded dst

/-! ### The protocol -/

/-- **The bounded-buffer protocol** of an expander, for a source whose decoder delivers
    the bytes `total` and ends cleanly or not. -/
structure BoundedBuffer (expand : List UInt8 → Outcome (Int × List UInt8)) (total : List UInt8)
    (clean : Bool) : Prop where
  ends : ∀ dst, (expand dst).Ends
  success : ∀ dst code dst', expand dst = .done (code, dst') → 0 ≤ code →
    clean = true ∧ code = total.length ∧ total.length ≤ dst.length ∧
      dst' = total ++ dst.drop total.length
  failure : ∀ dst code dst', expand dst = .done (code, dst') → code < 0 → dst' = dst
  coherent : ∀ dst₁ dst₂ code dst', dst₁.length ≤ dst₂.length →
    expand dst₁ = .done (code, dst') → 0 ≤ code ∨ code = -1 →
      ∃ dst', expand dst₂ = .done (code, dst')
  tooSmall : clean = true → ∀ dst, (∃ dst', expand dst = .done (-2, dst')) ↔
    dst.length < total.length

section Protocol

variable {expand : List UInt8 → Outcome (Int × List UInt8)} {total : List UInt8} {clean : Bool}

def Settles (total : List UInt8) (clean : Bool) (cap : Nat) (code : Int) : Prop :=
  (code = total.length ∧ clean = true ∧ total.length ≤ cap) ∨
    (code = -1 ∧ clean = false) ∨ (code = -2 ∧ cap < total.length)

/-- The protocol follows from the code that is returned at every capacity. -/
theorem boundedBuffer_of_code {code : Nat → Int}
    (hexpand : ∀ dst, expand dst = .done (code dst.length,
      if 0 ≤ code dst.length then total ++ dst.drop total.length else dst))
    (hsettles : ∀ cap, Settles total clean cap (code cap))
    (hmalformed : ∀ cap cap', cap ≤ cap' → code cap = -1 → code cap' = -1) :
    BoundedBuffer expand total clean where
  ends := fun dst => ⟨_, hexpand dst⟩
  success := by
    intro dst c dst' h hc
    rw [hexpand, Outcome.done.injEq, Prod.mk.injEq] at h
    obtain ⟨rfl, rfl⟩ := h
    rcases hsettles dst.length with ⟨hcode, hclean, hfit⟩ | ⟨hcode, -⟩ | ⟨hcode, -⟩
    · exact ⟨hclean, hcode, hfit, if_pos hc⟩
    · rw [hcode] at hc
      exact absurd hc (by decide)
    · rw [hcode] at hc
      exact absurd hc (by decide)
  failure := by
    intro dst c dst' h hc
    rw [hexpand, Outcome.done.injEq, Prod.mk.injEq] at h
    obtain ⟨rfl, rfl⟩ := h
    exact if_neg (Int.not_le.mpr hc)
  coherent := by
    intro dst₁ dst₂ c dst' hle h hc
    rw [hexpand, Outcome.done.injEq, Prod.mk.injEq] at h
    obtain ⟨rfl, -⟩ := h
    suffices hsame : code dst₂.length = code dst₁.length by
      exact ⟨_, by rw [hexpand, hsame]⟩
    rcases hsettles dst₁.length with ⟨hcode, hclean, hfit⟩ | ⟨hcode, -⟩ | ⟨hcode, -⟩
    · rcases hsettles dst₂.length with ⟨hcode', -, -⟩ | ⟨-, hdirty⟩ | ⟨-, hshort⟩
      · rw [hcode, hcode']
      · cases hclean.symm.trans hdirty
      · omega
    · rw [hcode, hmalformed _ _ hle hcode]
    · rw [hcode] at hc
      exact absurd hc (by decide)
  tooSmall := by
    intro hclean dst
    have htwo : (∃ dst', expand dst = .done (-2, dst')) ↔ code dst.length = -2 := by
      rw [hexpand]
      constructor
      · rintro ⟨dst', h⟩
        exact (Prod.mk.inj (Outcome.done.inj h)).1
      · intro h
        rw [h]
        exact ⟨_, rfl⟩
    rw [htwo]
    rcases hsettles dst.length with ⟨hcode, -, hfit⟩ | ⟨-, hdirty⟩ | ⟨hcode, hshort⟩
    · omega
    · cases hclean.symm.trans hdirty
    · exact iff_of_true hcode hshort

end Protocol

/-! ### The codes of the two expanders -/

theorem copyExpanded_eq {expanded dst : List UInt8} (hfit : expanded.length ≤ dst.length) :
    copyExpanded expanded dst =
      .done ((expanded.length : Int), expanded ++ dst.drop expanded.length) := by
  unfold copyExpanded
  split
  · next hempty =>
    rw [List.isEmpty_iff.mp hempty]
    rfl
  · rw [copyFromSlice_of_le (Nat.zero_le _) hfit rfl]
    rfl

/-- A malformed stream is told before the capacity is looked at. -/
def xzCode (clean : Bool) (length cap : Nat) : Int :=
  if clean = false then -1 else if cap < length then -2 else length

/-- The capacity is exceeded before the end of the stream is reached. -/
def bzip2Code (clean : Bool) (length cap : Nat) : Int :=
  if cap < length then -2 else if clean = false then -1 else length

theorem xzCode_settles (total : List UInt8) (clean : Bool) (cap : Nat) :
    Settles total clean cap (xzCode clean total.length cap) := by
  unfold xzCode Settles
  cases clean with
  | false => exact Or.inr (Or.inl ⟨rfl, rfl⟩)
  | true =>
    rcases Nat.lt_or_ge cap total.length with hshort | hfit
    · exact Or.inr (Or.inr ⟨if_pos hshort, hshort⟩)
    · exact Or.inl ⟨if_neg (Nat.not_lt.mpr hfit), rfl, hfit⟩

theorem bzip2Code_settles (total : List UInt8) (clean : Bool) (cap : Nat) :
    Settles total clean cap (bzip2Code clean total.length cap) := by
  unfold bzip2Code Settles
  rcases Nat.lt_or_ge cap total.length with hshort | hfit
  · exact Or.inr (Or.inr ⟨if_pos hshort, hshort⟩)
  · rw [if_neg (Nat.not_lt.mpr hfit)]
    cases clean with
    | false => exact Or.inr (Or.inl ⟨rfl, rfl⟩)
    | true => exact Or.inl ⟨rfl, rfl, hfit⟩

theorem xzCode_malformed {clean : Bool} {length cap cap' : Nat}
    (h : xzCode clean length cap = -1) : xzCode clean length cap' = -1 := by
  unfold xzCode at h ⊢
  cases clean with
  | false => rfl
  | true =>
    rcases Nat.lt_or_ge cap length with hshort | hfit
    · rw [if_neg (by decide), if_pos hshort] at h
      exact absurd h (by decide)
    · rw [if_neg (by decide), if_neg (Nat.not_lt.mpr hfit)] at h
      omega

theorem bzip2Code_malformed {clean : Bool} {length cap cap' : Nat} (hle : cap ≤ cap')
    (h : bzip2Code clean length cap = -1) : bzip2Code clean length cap' = -1 := by
  unfold bzip2Code at h ⊢
  rcases Nat.lt_or_ge cap length with hshort | hfit
  · rw [if_pos hshort] at h
    exact absurd h (by decide)
  · rw [if_neg (Nat.not_lt.mpr hfit)] at h
    rwa [if_neg (Nat.not_lt.mpr (Nat.le_trans hfit hle))]

theorem imageforgeXzDecompress_eq {decoder : Decoder ε R} {src : List UInt8}
    {chunks : List (List UInt8)} {clean : Bool}
    (h : Delivers decoder.read (decoder.new src) chunks clean) {budget : Nat}
    (hbudget : chunks.length < budget) (dst : List UInt8) :
    imageforgeXzDecompress decoder budget src dst =
      .done (xzCode clean chunks.flatten.length dst.length,
        if 0 ≤ xzCode clean chunks.flatten.length dst.length then
          chunks.flatten ++ dst.drop chunks.flatten.length else dst) := by
  rw [imageforgeXzDecompress, readToEnd_eq h hbudget, Outcome.done_bind]
  dsimp only
  unfold xzCode
  cases clean with
  | false => rfl
  | true =>
    simp only [Bool.true_eq_false, if_false]
    rcases Nat.lt_or_ge dst.length chunks.flatten.length with hshort | hfit
    · rw [if_pos hshort, if_pos hshort]
      rfl
    · rw [if_neg (Nat.not_lt.mpr hfit), if_neg (Nat.not_lt.mpr hfit),
        if_pos (Int.natCast_nonneg _)]
      exact copyExpanded_eq hfit

/-! ### The loop over the chunks -/

section Loop

variable {read : R → Except ε (List UInt8) × R} {cap : Nat}

/-- **The invariant of the loop.** The accumulator fits the capacity, and the reader
    still delivers `rest`, in chunks that fit the buffer. -/
structure Bzip2State.Reading (read : R → Except ε (List UInt8) × R) (cap : Nat)
    (s : Bzip2State R) (rest : List (List UInt8)) (clean : Bool) : Prop where
  delivers : Delivers read s.reader rest clean
  limited : ∀ c ∈ rest, c.length ≤ chunkLength
  buffer : s.chunk.length = chunkLength
  room : s.expanded.length ≤ cap

theorem length_fill {buffer bytes : List UInt8} (h : bytes.length ≤ buffer.length) :
    (fill buffer bytes).length = buffer.length := by
  rw [fill, List.length_append, List.length_take, List.length_drop]
  omega

theorem slice_fill {buffer bytes : List UInt8} (h : bytes.length ≤ buffer.length) :
    slice (fill buffer bytes) 0 bytes.length = .done bytes := by
  rw [fill, List.take_of_length_le h]
  have hslice := slice_append [] bytes (buffer.drop bytes.length)
  rw [List.nil_append, List.length_nil, Nat.zero_add] at hslice
  exact hslice

/-- What a turn can do: leave at the end of the stream or at an error, leave with an
    accumulator that has outgrown the capacity, or go on with one chunk less. -/
theorem bzip2Turn_cases {s : Bzip2State R} {rest : List (List UInt8)} {clean : Bool}
    (h : s.Reading read cap rest clean) :
    (rest = [] ∧ bzip2Turn read cap s =
      .done (.exit (if clean then none else some (-1), s.expanded))) ∨
    ∃ c rest', rest = c :: rest' ∧ c.length ≤ chunkLength ∧
      ((cap < (s.expanded ++ c).length ∧
        bzip2Turn read cap s = .done (.exit (some (-2), s.expanded ++ c))) ∨
      ∃ s', bzip2Turn read cap s = .done (.next s') ∧ s'.expanded = s.expanded ++ c ∧
        s'.Reading read cap rest' clean) := by
  obtain ⟨reader, chunk, expanded⟩ := s
  obtain ⟨hdelivers, hlimited, hbuffer, hroom⟩ := h
  dsimp only at hdelivers hbuffer hroom ⊢
  cases hdelivers with
  | finished hread =>
    refine Or.inl ⟨rfl, ?_⟩
    simp only [bzip2Turn, hread, Outcome.pure_eq, if_true]
  | failed hread =>
    refine Or.inl ⟨rfl, ?_⟩
    simp only [bzip2Turn, hread, Outcome.pure_eq, Bool.false_eq_true, if_false]
  | @chunk _ reader' b bs rest' _ hread hrest =>
    have hfits : (b :: bs).length ≤ chunk.length := by
      rw [hbuffer]
      exact hlimited _ List.mem_cons_self
    refine Or.inr ⟨b :: bs, rest', rfl, hbuffer ▸ hfits, ?_⟩
    have hturn : bzip2Turn read cap ⟨reader, chunk, expanded⟩ =
        if cap < (expanded ++ b :: bs).length then
          .done (.exit (some (-2), expanded ++ b :: bs))
        else .done (.next ⟨reader', fill chunk (b :: bs), expanded ++ b :: bs⟩) := by
      simp only [bzip2Turn, hread, slice_fill hfits, Outcome.done_bind, Outcome.pure_eq]
    rcases Nat.lt_or_ge cap (expanded ++ b :: bs).length with hover | hunder
    · exact Or.inl ⟨hover, hturn.trans (if_pos hover)⟩
    · refine Or.inr ⟨_, hturn.trans (if_neg (Nat.not_lt.mpr hunder)), rfl, hrest, ?_, ?_, hunder⟩
      · intro c hc
        exact hlimited c (List.mem_cons_of_mem _ hc)
      · exact (length_fill hfits).trans hbuffer

/-- How the loop leaves. -/
theorem loop_bzip2Turn {rest : List (List UInt8)} {clean : Bool} {s : Bzip2State R}
    (h : s.Reading read cap rest clean) {budget : Nat} (hbudget : rest.length < budget) :
    ∃ result expanded, loop (bzip2Turn read cap) budget s = .done (result, expanded) ∧
      ((cap < (s.expanded ++ rest.flatten).length ∧ result = some (-2)) ∨
        ((s.expanded ++ rest.flatten).length ≤ cap ∧
          result = (if clean then none else some (-1)) ∧
          expanded = s.expanded ++ rest.flatten)) := by
  obtain ⟨budget, rfl⟩ := Nat.exists_eq_succ_of_ne_zero (Nat.ne_of_gt (Nat.zero_lt_of_lt hbudget))
  induction rest generalizing s budget with
  | nil =>
    rcases bzip2Turn_cases h with ⟨-, hturn⟩ | ⟨c, rest', hrest, -⟩
    · refine ⟨_, _, loop_exit budget hturn, Or.inr ⟨?_, rfl, ?_⟩⟩
      · rw [List.flatten_nil, List.append_nil]
        exact h.room
      · rw [List.flatten_nil, List.append_nil]
    · cases hrest
  | cons c rest ih =>
    rcases bzip2Turn_cases h with ⟨hrest, -⟩ | ⟨c', rest', hrest, -, hcases⟩
    · cases hrest
    · obtain ⟨rfl, rfl⟩ := List.cons.inj hrest
      rw [List.flatten_cons, ← List.append_assoc]
      rcases hcases with ⟨hover, hturn⟩ | ⟨s', hturn, hexpanded, hs'⟩
      · refine ⟨_, _, loop_exit budget hturn, Or.inl ⟨?_, rfl⟩⟩
        rw [List.length_append]
        exact Nat.lt_of_lt_of_le hover (Nat.le_add_right _ _)
      · have hleft : rest.length < budget := Nat.lt_of_succ_lt_succ hbudget
        obtain ⟨left, rfl⟩ :=
          Nat.exists_eq_succ_of_ne_zero (Nat.ne_of_gt (Nat.zero_lt_of_lt hleft))
        rw [loop_next _ hturn, ← hexpanded]
        exact ih hs' left hleft

/-- The accumulator is bounded by the capacity and one chunk, in every state that the
    loop goes through and in the value it leaves with. -/
theorem bzip2_accumulator {s₀ s : Bzip2State R} {chunks : List (List UInt8)} {clean : Bool}
    (h₀ : s₀.Reading read cap chunks clean) (hvisits : Visits (bzip2Turn read cap) s₀ s) :
    s.expanded.length ≤ cap ∧ ∀ result expanded,
      bzip2Turn read cap s = .done (.exit (result, expanded)) →
        expanded.length ≤ cap + chunkLength := by
  have hreading : ∃ rest, s.Reading read cap rest clean := by
    induction hvisits with
    | refl => exact ⟨chunks, h₀⟩
    | @next t t' before step ih =>
      obtain ⟨rest, ht⟩ := ih
      rcases bzip2Turn_cases ht with ⟨-, hturn⟩ | ⟨c, rest', -, -, ⟨-, hturn⟩ | ⟨s', hturn, -, hs'⟩⟩
      · cases hturn.symm.trans step
      · cases hturn.symm.trans step
      · obtain rfl := Turn.next.inj (Outcome.done.inj (hturn.symm.trans step))
        exact ⟨rest', hs'⟩
  obtain ⟨rest, hs⟩ := hreading
  refine ⟨hs.room, ?_⟩
  intro result expanded hexit
  have hroom := hs.room
  rcases bzip2Turn_cases hs with ⟨-, hturn⟩ | ⟨c, rest', -, hc, ⟨-, hturn⟩ | ⟨s', hturn, -⟩⟩
  · obtain ⟨-, rfl⟩ := Prod.mk.inj (Turn.exit.inj (Outcome.done.inj (hturn.symm.trans hexit)))
    exact Nat.le_trans hroom (Nat.le_add_right _ _)
  · obtain ⟨-, rfl⟩ := Prod.mk.inj (Turn.exit.inj (Outcome.done.inj (hturn.symm.trans hexit)))
    rw [List.length_append]
    exact Nat.add_le_add hroom hc
  · cases hturn.symm.trans hexit

end Loop

/-! ### The two expanders -/

theorem imageforgeBzip2Decompress_eq {decoder : Decoder ε R} {src : List UInt8}
    {chunks : List (List UInt8)} {clean : Bool} (hheader : bzip2HeaderOk src = true)
    {dst : List UInt8}
    (h : (Bzip2State.start (decoder.new src)).Reading decoder.read dst.length chunks clean)
    {budget : Nat} (hbudget : chunks.length < budget) :
    imageforgeBzip2Decompress decoder budget src dst =
      .done (bzip2Code clean chunks.flatten.length dst.length,
        if 0 ≤ bzip2Code clean chunks.flatten.length dst.length then
          chunks.flatten ++ dst.drop chunks.flatten.length else dst) := by
  have hchecked : ¬ bzip2HeaderOk src = false := by
    rw [hheader]
    decide
  obtain ⟨result, expanded, hloop, hleft⟩ := loop_bzip2Turn h hbudget
  have hstart : (Bzip2State.start (decoder.new src)).expanded ++ chunks.flatten =
      chunks.flatten := List.nil_append _
  rw [hstart] at hleft
  rw [imageforgeBzip2Decompress, if_neg hchecked, hloop, Outcome.done_bind, bzip2Code]
  rcases hleft with ⟨hover, rfl⟩ | ⟨hfit, rfl, rfl⟩
  · rw [if_pos hover]
    rfl
  · rw [if_neg (Nat.not_lt.mpr hfit)]
    cases clean with
    | false => rfl
    | true =>
      simp only [Bool.true_eq_false, if_false, if_true]
      rw [if_pos (Int.natCast_nonneg _)]
      exact copyExpanded_eq hfit

def abcXz : List UInt8 :=
  [253, 55, 122, 88, 90, 0, 0, 1, 105, 34, 222, 54, 2, 0, 33, 1, 22, 0, 0, 0, 116, 47, 229, 163,
    1, 0, 2, 97, 98, 99, 0, 0, 194, 65, 36, 53, 0, 1, 23, 3, 7, 96, 12, 188, 144, 66, 153, 13, 1,
    0, 0, 0, 0, 1, 89, 90]

def abcBzip2 : List UInt8 :=
  [66, 90, 104, 57, 49, 65, 89, 38, 83, 89, 100, 140, 187, 115, 0, 0, 0, 1, 0, 56, 0, 32, 0, 33,
    152, 25, 132, 97, 119, 36, 83, 133, 9, 6, 72, 203, 183, 48]

/-- A decoder that knows one stream, which it delivers as one chunk. -/
def abcDecoder (stream : List UInt8) : Decoder Unit (Option (List UInt8)) where
  new src := if src = stream then some [97, 98, 99] else none
  read
    | some bytes => (.ok bytes, none)
    | none => (.ok [], none)

end ImgTools
