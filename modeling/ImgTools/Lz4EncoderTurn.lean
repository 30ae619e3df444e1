import ImgTools.Lz4Search

/-!
# One turn of the LZ4 compressor

What the parts of the compressor do, whatever its hash tables hold: a write fails or
appends the encoding it is meant to append (`Writes`), and a turn before the end of
the input is two searches and what they make of them (`compressTurn_eq`). The tables
only choose candidates, so no property of them is needed: a stale slot, a self link
or a truncated position can make the walk over the chain end early or try a
candidate that fails the comparison, and nothing else.
-/

namespace ImgTools.Lz4

open Exec

/-! ### Writing -/

/-- A write of `bytes` behind `written`: it fails, or it appends them. -/
def Writes (bytes written : List UInt8) (run : Outcome Encoded) : Prop :=
  (∃ output, run = .done (none, output)) ∨
  (∃ rest, run = .done (some (written ++ bytes).length, written ++ bytes ++ rest))

/-- A write of `bytes` behind `written`, into the `rest` of a buffer: it appends them
    if there is room for all of them, and fails if there is not. -/
structure WritesIn (bytes written rest : List UInt8) (run : Outcome Encoded) : Prop where
  fits : bytes.length ≤ rest.length →
    run = .done (some (written ++ bytes).length, written ++ bytes ++ rest.drop bytes.length)
  fails : rest.length < bytes.length →
    ∃ output, run = .done (none, output) ∧ output.length = written.length + rest.length

namespace WritesIn

variable {bytes bytes' written rest : List UInt8} {run : Outcome Encoded}

theorem writes (h : WritesIn bytes written rest run) : Writes bytes written run := by
  rcases Nat.lt_or_ge rest.length bytes.length with hshort | hroom
  · obtain ⟨output, hrun, -⟩ := h.fails hshort
    exact Or.inl ⟨output, hrun⟩
  · exact Or.inr ⟨_, h.fits hroom⟩

theorem nil (h : run = .done (some written.length, written ++ rest)) :
    WritesIn [] written rest run where
  fits := by
    intro _
    simpa using h
  fails := by
    intro hlt
    exact absurd hlt (Nat.not_lt_zero _)

/-- Rule of the first byte. -/
theorem cons {b : UInt8}
    (hfull : rest = [] → ∃ output, run = .done (none, output) ∧ output.length = written.length)
    (hroom : ∀ old rest', rest = old :: rest' → WritesIn bytes (written ++ [b]) rest' run) :
    WritesIn (b :: bytes) written rest run := by
  match rest, hfull, hroom with
  | [], hfull, _ =>
    obtain ⟨output, hrun, hlength⟩ := hfull rfl
    refine ⟨?_, fun _ => ⟨output, hrun, hlength⟩⟩
    intro hle
    exact absurd hle (Nat.not_succ_le_zero _)
  | old :: rest, _, hroom =>
    obtain ⟨hfits, hfails⟩ := hroom old rest rfl
    constructor
    · intro hle
      rw [hfits (Nat.le_of_succ_le_succ hle)]
      simp
    · intro hlt
      obtain ⟨output, hrun, hlength⟩ := hfails (Nat.lt_of_succ_lt_succ hlt)
      refine ⟨output, hrun, ?_⟩
      simp only [hlength, List.length_append, List.length_cons, List.length_nil]
      omega

/-- Rule of composition: a write that fails ends the whole. -/
theorem bind {f : Encoded → Outcome Encoded} (h : WritesIn bytes written rest run)
    (hnone : ∀ output, f (none, output) = .done (none, output))
    (hsome : WritesIn bytes' (written ++ bytes) (rest.drop bytes.length)
      (f (some (written ++ bytes).length, written ++ bytes ++ rest.drop bytes.length))) :
    WritesIn (bytes ++ bytes') written rest (run >>= f) := by
  obtain ⟨hfits, hfails⟩ := hsome
  rw [List.length_drop] at hfits hfails
  constructor
  · intro hle
    rw [List.length_append] at hle
    rw [h.fits (by omega), Outcome.done_bind, hfits (by omega)]
    simp only [List.append_assoc, List.drop_drop, List.length_append]
  · intro hlt
    rw [List.length_append] at hlt
    rcases Nat.lt_or_ge rest.length bytes.length with hshort | hroom
    · obtain ⟨output, hrun, hlength⟩ := h.fails hshort
      exact ⟨output, by rw [hrun, Outcome.done_bind, hnone], hlength⟩
    · obtain ⟨output, hrun, hlength⟩ := hfails (by omega)
      refine ⟨output, by rw [h.fits hroom, Outcome.done_bind, hrun], ?_⟩
      rw [hlength, List.length_append]
      omega

end WritesIn

theorem store_append (written rest : List UInt8) (old b : UInt8) :
    store (written ++ old :: rest) written.length b = .done (written ++ [b] ++ rest) := by
  rw [store_of_lt _ (by simp), List.set_append_right _ _ (Nat.le_refl _), Nat.sub_self,
    List.set_cons_zero, List.append_assoc]
  rfl

/-- `write_length` appends bytes of 255 and a smaller one. -/
theorem writeLength_writesIn (length : Nat) (written rest : List UInt8) :
    WritesIn (List.replicate (length / 255) 255 ++ [UInt8.ofNat (length % 255)]) written rest
      (writeLength (written ++ rest) written.length length) := by
  suffices h : ∀ budget length (written rest : List UInt8), length < budget →
      WritesIn (List.replicate (length / 255) 255 ++ [UInt8.ofNat (length % 255)]) written rest
        (loop writeLengthTurn budget (written.length, length, written ++ rest)) from
    h (length + 1) length written rest (Nat.lt_succ_self _)
  intro budget
  induction budget with
  | zero => intro length _ _ hlt; omega
  | succ budget ih =>
    intro length written rest hlt
    have hfull : rest = [] → ∃ output,
        loop writeLengthTurn (budget + 1) (written.length, length, written ++ rest) =
          .done (none, output) ∧ output.length = written.length := by
      rintro rfl
      refine ⟨written, loop_exit budget ?_, rfl⟩
      simp [writeLengthTurn]
    have hroom : ∀ (old : UInt8) (rest : List UInt8),
        ¬ written.length + (old :: rest).length ≤ written.length := by
      intro old rest
      rw [List.length_cons]
      omega
    by_cases hlong : 255 ≤ length
    · have hquot : length / 255 = (length - 255) / 255 + 1 := by omega
      have hrem : length % 255 = (length - 255) % 255 := by omega
      rw [hquot, hrem, List.replicate_succ, List.cons_append]
      refine .cons hfull ?_
      rintro old rest rfl
      have hturn : writeLengthTurn (written.length, length, written ++ old :: rest) =
          .done (.next ((written ++ [255]).length, length - 255, written ++ [255] ++ rest)) := by
        simp only [writeLengthTurn, if_neg (hroom old rest), if_pos hlong, store_append,
          Outcome.done_bind, Outcome.pure_eq, List.length_append, List.length_singleton]
      rw [loop_next budget hturn]
      exact ih (length - 255) (written ++ [255]) rest (by omega)
    · have hquot : length / 255 = 0 := by omega
      have hrem : length % 255 = length := by omega
      rw [hquot, hrem, List.replicate_zero, List.nil_append]
      refine .cons hfull ?_
      rintro old rest rfl
      refine .nil (loop_exit budget ?_)
      simp only [writeLengthTurn, if_neg (hroom old rest), if_neg hlong, store_append,
        Outcome.done_bind, Outcome.pure_eq, List.length_append, List.length_singleton]

theorem writeExtension_writesIn (length : Nat) (written rest : List UInt8) :
    WritesIn (runs length) written rest
      (writeExtension (written ++ rest) written.length length) := by
  unfold writeExtension runs
  by_cases hlong : 15 ≤ length
  · rw [if_pos hlong, if_neg (by omega)]
    exact writeLength_writesIn (length - 15) written rest
  · rw [if_neg hlong, if_pos (by omega)]
    exact .nil rfl

theorem tokenNibble_toNat (length : Nat) : (tokenNibble length).toNat = nibble length := by
  unfold tokenNibble nibble
  rw [UInt8.toNat_ofNat']
  split <;> omega

theorem token_eq (high low : Nat) :
    tokenNibble high <<< 4 ||| tokenNibble low = token (nibble high) (nibble low) := by
  have hhigh := nibble_le high
  have hlow := nibble_le low
  apply UInt8.toNat_inj.mp
  rw [token_toNat hhigh hlow, UInt8.toNat_or, UInt8.toNat_shiftLeft, tokenNibble_toNat,
    tokenNibble_toNat]
  have hshift : nibble high <<< ((4 : UInt8).toNat % 8) % 2 ^ 8 = nibble high <<< 4 := by
    simp only [UInt8.reduceToNat, Nat.reduceMod, Nat.shiftLeft_eq]
    omega
  rw [hshift, ← Nat.shiftLeft_add_eq_or_of_lt (by omega), Nat.shiftLeft_eq]
  omega

theorem copyLiterals_writesIn {input : List UInt8} {anchor literalLen : Nat}
    (hin : anchor + literalLen ≤ input.length) (written rest : List UInt8) :
    WritesIn ((input.drop anchor).take literalLen) written rest (do
      if (written ++ rest).length < written.length + literalLen then
        return (none, written ++ rest)
      let literals ← slice input anchor (anchor + literalLen)
      let output ← copyFromSlice (written ++ rest) written.length (written.length + literalLen)
        literals
      return (some (written.length + literalLen), output)) := by
  have hcount : ((input.drop anchor).take literalLen).length = literalLen := by
    rw [List.length_take, List.length_drop]
    omega
  have hslice : slice input anchor (anchor + literalLen) =
      .done ((input.drop anchor).take literalLen) := by
    rw [slice_of_le (by omega) hin, List.drop_take]
    congr 2
    omega
  have hlength : (written ++ rest).length = written.length + rest.length := List.length_append
  have hbehind : (written ++ rest).drop (written.length + literalLen) = rest.drop literalLen := by
    rw [← List.drop_drop, List.drop_left]
  constructor
  · intro hle
    rw [hcount] at hle
    rw [if_neg (by omega), hslice, Outcome.done_bind,
      copyFromSlice_of_le (by omega) (by omega) (by omega), Outcome.done_bind, List.take_left,
      List.length_append, hcount, hbehind]
    rfl
  · intro hlt
    exact ⟨written ++ rest, if_pos (by omega), hlength⟩

/-- The token, the length bytes and the literals, appended in this order. -/
theorem writeLiterals_writesIn {input : List UInt8} {anchor literalLen : Nat} (low : Nat)
    (hin : anchor + literalLen ≤ input.length) (written rest : List UInt8) :
    WritesIn (token (nibble literalLen) (nibble low) ::
        (runs literalLen ++ (input.drop anchor).take literalLen)) written rest
      (writeLiterals input anchor literalLen (tokenNibble low) written.length
        (written ++ rest)) := by
  unfold writeLiterals
  refine .cons ?_ ?_
  · rintro rfl
    exact ⟨_, if_pos (by simp), by simp⟩
  · rintro old rest rfl
    have hroom : ¬ (written ++ old :: rest).length ≤ written.length := by
      rw [List.length_append, List.length_cons]
      omega
    have hpos : written.length + 1 =
        (written ++ [token (nibble literalLen) (nibble low)]).length := by simp
    rw [if_neg hroom, store_append, Outcome.done_bind, token_eq, hpos]
    exact (writeExtension_writesIn literalLen _ rest).bind (fun _ => rfl)
      (copyLiterals_writesIn hin _ _)

/-- The offset and the match length, appended in this order. -/
theorem writeMatch_writesIn (offset : UInt16) (matchCode : Nat) (written rest : List UInt8) :
    WritesIn (LittleEndian.encode 2 offset.toNat ++ runs matchCode) written rest
      (writeMatch offset matchCode written.length (written ++ rest)) := by
  have hfirst : (offset &&& 0xff).toUInt8 = UInt8.ofNat offset.toNat := by
    apply UInt8.toNat_inj.mp
    rw [UInt16.toNat_toUInt8, UInt16.toNat_and, UInt8.toNat_ofNat']
    simp only [UInt16.reduceToNat]
    rw [Nat.and_two_pow_sub_one_eq_mod _ 8]
    omega
  have hsecond : (offset >>> 8).toUInt8 = UInt8.ofNat (offset.toNat / 256) := by
    apply UInt8.toNat_inj.mp
    rw [UInt16.toNat_toUInt8, UInt16.toNat_shiftRight, UInt8.toNat_ofNat']
    simp [Nat.shiftRight_eq_div_pow]
  unfold writeMatch
  simp only [LittleEndian.encode, List.cons_append, List.nil_append, ← hfirst, ← hsecond]
  refine .cons ?_ ?_
  · rintro rfl
    exact ⟨_, if_pos (by simp), by simp⟩
  rintro old rest rfl
  refine .cons ?_ ?_
  · rintro rfl
    exact ⟨_, if_pos (by simp), by simp⟩
  rintro old' rest rfl
  have hroom : ¬ (written ++ old :: old' :: rest).length < written.length + 2 := by
    simp only [List.length_append, List.length_cons]
    omega
  have hpos : written.length + 1 = (written ++ [(offset &&& 0xff).toUInt8]).length := by simp
  have hpos' : written.length + 2 =
      (written ++ [(offset &&& 0xff).toUInt8] ++ [(offset >>> 8).toUInt8]).length := by simp
  rw [if_neg hroom, store_append, Outcome.done_bind, hpos, store_append, Outcome.done_bind, hpos']
  exact writeExtension_writesIn matchCode _ rest

/-! ### Matching -/

theorem Repeats.extendBack {input : List UInt8} {limit start pos length : Nat}
    (h : Repeats input limit (start + 1) (pos + 1) length)
    (hbyte : input[start]? = input[pos]?) : Repeats input limit start pos (length + 1) where
  before := Nat.lt_of_succ_lt_succ h.before
  near := by
    have hnear := h.near
    omega
  long := Nat.le_succ_of_le h.long
  inside := by
    have hinside := h.inside
    omega
  same := by
    intro j hj
    match j with
    | 0 => exact hbyte
    | j + 1 =>
      have hsame := h.same j (by omega)
      rwa [Nat.add_right_comm, Nat.add_right_comm pos 1 j] at hsame

section Match

variable {input : List UInt8} {limit : Nat}

/-- The loop that extends a match backwards keeps its end and its offset. -/
theorem extendBack_spec {anchor start pos length : Nat} (hlimit : limit ≤ input.length)
    (hanchor : anchor ≤ pos) (h : Repeats input limit start pos length) :
    ∃ start' pos' length', loop (extendBackTurn input anchor) (start + 1) (start, pos, length) =
        .done (start', pos', length') ∧ Repeats input limit start' pos' length' ∧
      anchor ≤ pos' ∧ pos' ≤ pos ∧ pos' + length' = pos + length := by
  obtain ⟨⟨start', pos', length'⟩, hrun, hpost⟩ := loop_spec (extendBackTurn input anchor)
    (fun s => Repeats input limit s.1 s.2.1 s.2.2 ∧ anchor ≤ s.2.1 ∧ s.2.1 ≤ pos ∧
      s.2.1 + s.2.2 = pos + length)
    (fun s => s.1)
    (fun _ s => Repeats input limit s.1 s.2.1 s.2.2 ∧ anchor ≤ s.2.1 ∧ s.2.1 ≤ pos ∧
      s.2.1 + s.2.2 = pos + length)
    (by
      rintro ⟨start, pos, length⟩ ⟨hrep, hanchor, hback, hend⟩
      simp only at hrep hanchor hback hend
      have hbefore := hrep.before
      have hinside := hrep.inside
      unfold extendBackTurn
      by_cases hmore : anchor < pos ∧ 0 < start
      · obtain ⟨start, rfl⟩ := Nat.exists_eq_succ_of_ne_zero (Nat.ne_of_gt hmore.2)
        obtain ⟨pos, rfl⟩ : ∃ p, pos = p + 1 := ⟨pos - 1, by omega⟩
        have hstart : start < input.length := by omega
        have hpos : pos < input.length := by omega
        simp only [if_pos hmore, Nat.add_sub_cancel, Nat.succ_eq_add_one, index_of_lt hstart,
          index_of_lt hpos, Outcome.done_bind]
        by_cases hbyte : input[start] = input[pos]
        · left
          refine ⟨_, if_pos hbyte, ⟨hrep.extendBack ?_, by simp only; omega, by simp only; omega,
            by simp only; omega⟩, by simp only; omega, fun _ h => h⟩
          rw [List.getElem?_eq_getElem hstart, List.getElem?_eq_getElem hpos, hbyte]
        · exact Or.inr ⟨_, if_neg hbyte, hrep, hanchor, hback, hend⟩
      · exact Or.inr ⟨_, if_neg hmore, hrep, hanchor, hback, hend⟩)
    (start + 1) (start, pos, length) ⟨h, hanchor, Nat.le_refl _, rfl⟩ (Nat.lt_succ_self _)
  exact ⟨start', pos', length', hrun, hpost⟩

end Match

/-! ### One turn -/

def hashAt (input : List UInt8) (position : Nat) : Slot :=
  lz4Hash4 (UInt32.ofNat (LittleEndian.value ((input.drop position).take 4)))

def foundAt (input : List UInt8) (i : Nat) (tables : Tables) : Option (Nat × Nat) :=
  plainSearch input i (input.length - lz4LastLiterals) (tables.head (hashAt input i)).toNat
    (tables.record (hashAt input i) i).chain

def wantsLookAhead (input : List UInt8) (i : Nat) : Option (Nat × Nat) → Bool
  | none => false
  | some (_, length) => decide (length < lz4HcLazyLength ∧ i + 1 + lz4MfLimit ≤ input.length)

def isLonger : Option (Nat × Nat) → Option (Nat × Nat) → Bool
  | some (_, length), some (_, nextLength) => decide (length < nextLength)
  | _, _ => false

/-- The lazy step after the search at `i`: whether it defers, and the tables behind it. -/
def lazyStep (input : List UInt8) (i : Nat) (found : Option (Nat × Nat)) (tables : Tables) :
    Bool × Tables :=
  if wantsLookAhead input i found then
    (isLonger found (foundAt input (i + 1) tables),
      tables.record (hashAt input (i + 1)) (i + 1))
  else (false, tables)

def afterSearch (input : List UInt8) (s : Encoder) :
    Option (Nat × Nat) → Bool × Tables → Outcome (Turn Encoder Encoded)
  | some (candidate, matchLen), (false, tables) => emitMatch input s tables candidate matchLen
  | _, (_, tables) => .done (.next { s with tables := tables, i := s.i + 1 })

section OneTurn

variable {input : List UInt8} {i : Nat}

theorem readU32Le_hash (h : i + 4 ≤ input.length) :
    ∃ word, readU32Le input i = .done word ∧ lz4Hash4 word = hashAt input i :=
  ⟨_, readU32Le_of_le h, rfl⟩

theorem lz4Insert_eq (h : i + 4 ≤ input.length) (tables : Tables) :
    lz4Insert input i tables = .done (tables.record (hashAt input i) i) := by
  obtain ⟨word, hword, hhash⟩ := readU32Le_hash h
  rw [lz4Insert, hword, Outcome.done_bind, hhash]
  rfl

theorem insertInside_done {count inside : Nat} (hin : inside + count + 3 ≤ input.length)
    (tables : Tables) : ∃ tables', insertInside input count inside tables = .done tables' := by
  induction count generalizing inside tables with
  | zero => exact ⟨tables, rfl⟩
  | succ count ih =>
    rw [insertInside, lz4Insert_eq (by omega), Outcome.done_bind]
    exact ih (by omega) _

/-- The search at a position of the main loop, whose hash is that of its four bytes. -/
theorem search_eq (h : i + lz4MfLimit ≤ input.length) (tables : Tables) :
    (∃ word, readU32Le input i = .done word ∧ lz4Hash4 word = hashAt input i) ∧
    lz4FindMatch input i (input.length - lz4LastLiterals) (tables.head (hashAt input i)).toNat
      (tables.record (hashAt input i) i).chain = .done (foundAt input i tables) := by
  have hpos := minMatch_le_limit h
  exact ⟨readU32Le_hash (hpos.trans (Nat.sub_le _ _)), lz4FindMatch_eq (Nat.sub_le _ _) hpos _ _⟩

theorem foundAt_maximalMatch (h : i + lz4MfLimit ≤ input.length) {tables : Tables}
    {start length : Nat} (hfound : foundAt input i tables = some (start, length)) :
    MaximalMatch input (input.length - lz4LastLiterals) start i length :=
  plainSearch_maximalMatch (Nat.le_of_add_right_le (minMatch_le_limit h)) hfound

/-- The lazy step ends, and is what `lazyStep` says. -/
theorem deferMatch_eq (found : Option (Nat × Nat)) (tables : Tables) :
    deferMatch input i (input.length - lz4LastLiterals) found tables =
      .done (lazyStep input i found tables) := by
  rcases found with _ | ⟨start, length⟩
  · rfl
  · by_cases hlazy : length < lz4HcLazyLength ∧ i + 1 + lz4MfLimit ≤ input.length
    · have hwants : wantsLookAhead input i (some (start, length)) = true := decide_eq_true hlazy
      obtain ⟨⟨word, hword, hhash⟩, hfind⟩ := search_eq hlazy.2 tables
      simp only [deferMatch, if_pos hlazy, hword, Outcome.done_bind, hhash, hfind]
      rw [lazyStep, if_pos hwants]
      cases foundAt input (i + 1) tables <;> rfl
    · have hwants : wantsLookAhead input i (some (start, length)) = false := decide_eq_false hlazy
      simp only [deferMatch, if_neg hlazy, lazyStep, hwants]
      rfl

/-- **A turn before the end of the input**: a search, the lazy step, and what they make of
    it. No access is out of range up to the writes. -/
theorem compressTurn_eq {s : Encoder} (h : s.i + lz4MfLimit ≤ input.length) :
    compressTurn input s = afterSearch input s (foundAt input s.i s.tables)
      (lazyStep input s.i (foundAt input s.i s.tables)
        (s.tables.record (hashAt input s.i) s.i)) := by
  obtain ⟨⟨word, hword, hhash⟩, hfind⟩ := search_eq h s.tables
  simp only [compressTurn, if_neg (Nat.not_lt.mpr h), hword, Outcome.done_bind, hhash, hfind,
    deferMatch_eq]
  -- what is left is how the two results are matched on
  generalize lazyStep input s.i (foundAt input s.i s.tables) _ = r
  generalize foundAt input s.i s.tables = found
  obtain ⟨_ | _, tables⟩ := r
  · cases found <;> rfl
  · cases found <;> rfl

end OneTurn

end ImgTools.Lz4
