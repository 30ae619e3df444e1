import ImgTools.Lz4EncoderTurn

/-!
# Lazy matching loses the match it deferred

The look-ahead of an iteration records the next position in the hash table before
it searches. The iteration that follows a lazy `continue` then finds that position
itself at the head of its chain: the walk over the chain ends at once, and the search
returns no match at all.
-/

namespace ImgTools.Lz4

open Exec

def searchAt (input : List UInt8) (i : Nat) (tables : Tables) : Outcome (Option (Nat × Nat)) := do
  let hash := lz4Hash4 (← readU32Le input i)
  lz4FindMatch input i (input.length - lz4LastLiterals) (tables.head hash).toNat
    (tables.record hash i).chain

def lookAhead (input : List UInt8) (s : Encoder) : Outcome (Option (Nat × Nat)) := do
  searchAt input (s.i + 1) (← lz4Insert input s.i s.tables)

/-- Whether an iteration takes the lazy `continue`. -/
def defers (input : List UInt8) (s : Encoder) : Outcome Bool := do
  if input.length < s.i + lz4MfLimit then return false
  let tables ← lz4Insert input s.i s.tables
  let found ← searchAt input s.i s.tables
  return (← deferMatch input s.i (input.length - lz4LastLiterals) found tables).1

def Encoder.start (output : List UInt8) : Encoder := ⟨Tables.fresh, 0, 0, 0, output⟩

/-- After every lazy `continue` of a run the search at the next position returns a match
    that is no shorter than the one that the look-ahead found there. -/
def KeepsDeferred (input output : List UInt8) : Prop :=
  ∀ s, Visits (compressTurn input) (Encoder.start output) s → defers input s = .done true →
    ∀ nextStart nextLength, lookAhead input s = .done (some (nextStart, nextLength)) →
      ∀ s', compressTurn input s = .done (.next s') →
        ∃ start length, searchAt input s'.i s'.tables = .done (some (start, length)) ∧
          nextLength ≤ length

/-! ### A search that starts at its own position -/

section Search

variable {input : List UInt8} {i : Nat} {tables : Tables}

theorem searchAt_eq (h : i + lz4MfLimit ≤ input.length) :
    searchAt input i tables = .done (foundAt input i tables) := by
  obtain ⟨⟨word, hword, hhash⟩, hfind⟩ := search_eq h tables
  rw [searchAt, hword, Outcome.done_bind]
  dsimp only
  rw [hhash, hfind]

/-- A stored position is the position itself, or too far away from it. -/
theorem stored_position (i : Nat) :
    i ≤ (UInt32.ofNat i).toNat ∨ lz4MaxOffset < i - (UInt32.ofNat i).toNat := by
  rw [UInt32.toNat_ofNat']
  unfold lz4MaxOffset
  omega

/-- The walk over a chain that starts at the position itself ends at once. -/
theorem foundAt_of_head (hhead : tables.head (hashAt input i) = UInt32.ofNat i) :
    foundAt input i tables = none := by
  have hempty : ∀ chain, candidates i chain lz4HcAttempts (UInt32.ofNat i).toNat = [] :=
    fun chain => if_pos (Or.inr (stored_position i))
  rw [foundAt, hhead, plainSearch, hempty]
  rfl

end Search

/-! ### The iteration behind a lazy `continue` -/

section Deferred

variable {input : List UInt8} {s : Encoder}

/-- A lazy step that defers has found a match at the next position, and recorded it. -/
theorem lazyStep_defers {i : Nat} {found : Option (Nat × Nat)} {tables : Tables}
    (h : (lazyStep input i found tables).1 = true) :
    i + 1 + lz4MfLimit ≤ input.length ∧ (∃ next, foundAt input (i + 1) tables = some next) ∧
      lazyStep input i found tables =
        (true, tables.record (hashAt input (i + 1)) (i + 1)) := by
  have hpair : lazyStep input i found tables = (true, (lazyStep input i found tables).2) :=
    Prod.ext h rfl
  unfold lazyStep at h hpair ⊢
  split at h
  · next hwants =>
    rw [if_pos hwants] at hpair ⊢
    rcases found with _ | ⟨start, length⟩
    · cases hwants
    · refine ⟨(of_decide_eq_true hwants).2, ?_, hpair⟩
      cases hnext : foundAt input (i + 1) tables with
      | none =>
        rw [hnext] at h
        cases h
      | some next => exact ⟨next, rfl⟩
  · cases h

/-- **The deferred match is lost.** An iteration that takes the lazy `continue` has
    found a match at the next position, moves on by one byte, and the search there
    finds none. -/
theorem search_after_defers (h : defers input s = .done true) :
    (∃ next, lookAhead input s = .done (some next)) ∧
      ∃ tables, compressTurn input s = .done (.next { s with tables := tables, i := s.i + 1 }) ∧
        searchAt input (s.i + 1) tables = .done none := by
  unfold defers at h
  split at h
  · cases h
  · next hrunning =>
    have hroom : s.i + lz4MfLimit ≤ input.length := Nat.not_lt.mp hrunning
    have hfour : s.i + 4 ≤ input.length := (minMatch_le_limit hroom).trans (Nat.sub_le _ _)
    rw [lz4Insert_eq hfour, Outcome.done_bind, searchAt_eq hroom, Outcome.done_bind,
      deferMatch_eq, Outcome.done_bind] at h
    obtain ⟨hnextRoom, ⟨next, hnext⟩, hstep⟩ := lazyStep_defers (Outcome.done.inj h)
    constructor
    · refine ⟨next, ?_⟩
      rw [lookAhead, lz4Insert_eq hfour, Outcome.done_bind, searchAt_eq hnextRoom, hnext]
    · refine ⟨(s.tables.record (hashAt input s.i) s.i).record (hashAt input (s.i + 1)) (s.i + 1),
        ?_, ?_⟩
      · rw [compressTurn_eq hroom, hstep]
        cases foundAt input s.i s.tables <;> rfl
      · rw [searchAt_eq hnextRoom, foundAt_of_head (Function.update_self _ _ _)]

end Deferred

/-- **Lazy matching keeps a match it deferred** exactly in a run that defers none: the
    search that follows a lazy `continue` never finds a match. -/
theorem keepsDeferred_iff (input output : List UInt8) :
    (KeepsDeferred input output ↔
      ∀ s, Visits (compressTurn input) (Encoder.start output) s → defers input s ≠ .done true) ∧
    ∀ s s', defers input s = .done true → compressTurn input s = .done (.next s') →
      searchAt input s'.i s'.tables = .done none := by
  constructor
  · constructor
    · intro hkeeps s hvisits hdefers
      obtain ⟨⟨⟨nextStart, nextLength⟩, hnext⟩, tables, hturn, hlost⟩ := search_after_defers hdefers
      obtain ⟨start, length, hfound, -⟩ :=
        hkeeps s hvisits hdefers nextStart nextLength hnext _ hturn
      cases hlost.symm.trans hfound
    · intro hnone s hvisits hdefers
      exact absurd hdefers (hnone s hvisits)
  · intro s s' hdefers hturn
    obtain ⟨-, tables, hturn', hlost⟩ := search_after_defers hdefers
    obtain rfl := Turn.next.inj (Outcome.done.inj (hturn.symm.trans hturn'))
    exact hlost

/-- `abcd`, `bcdef`, and then `abcdef`: the four bytes at 9 repeat those at 0, the five at
    10 those at 4. -/
def deferredInput : List UInt8 :=
  [97, 98, 99, 100, 98, 99, 100, 101, 102, 97, 98, 99, 100, 101, 102, 0, 0, 0, 0, 0, 0, 0]

/-- The iteration at 9 defers to a match of five bytes, and loses it. -/
theorem deferredInput_lost : ¬ KeepsDeferred deferredInput (List.replicate 64 0) := by
  have hrun : (stateAfter (compressTurn deferredInput) (Encoder.start (List.replicate 64 0)) 9).map
      (fun s => (s.i, defers deferredInput s, lookAhead deferredInput s)) =
        some (9, .done true, .done (some (4, 5))) := by decide +kernel
  obtain ⟨s, hs, hiteration⟩ := Option.map_eq_some_iff.mp hrun
  simp only [Prod.mk.injEq] at hiteration
  obtain ⟨-, hdefers, hahead⟩ := hiteration
  intro hkeeps
  obtain ⟨-, tables, hturn, hlost⟩ := search_after_defers hdefers
  obtain ⟨start, length, hfound, -⟩ :=
    hkeeps s (visits_of_stateAfter hs) hdefers 4 5 hahead _ hturn
  cases hlost.symm.trans hfound

end ImgTools.Lz4
