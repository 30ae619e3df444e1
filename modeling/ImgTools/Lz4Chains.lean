import ImgTools.HashChain
import ImgTools.Lz4Lazy

/-!
# The hash chains of the compressor

The two tables of the compressor are meant to be a chained table of the positions
before the current one. They are, as long as every position is inserted once; but
the look-ahead of an iteration inserts the next position, and the iteration after it
or the loop over the positions inside the match inserts it again. It is then linked
to itself, and the positions before it can no longer be reached.
-/

namespace ImgTools.Lz4

open Exec HashChain

def storedPosition (link : UInt32) : Option Nat :=
  if link = noPosition then none else some link.toNat

def Tables.links (tables : Tables) : Links Slot Slot where
  head := fun hash => storedPosition (tables.head hash)
  chain := fun slot => storedPosition (tables.chain slot)

/-- A position that is no further back from `i` than a match may be. -/
def InReach (i position : Nat) : Prop := i - position ≤ lz4MaxOffset

instance (i : Nat) : DecidablePred (InReach i) :=
  fun position => inferInstanceAs (Decidable (i - position ≤ lz4MaxOffset))

/-- The walk `head[h]`, `chain[head[h] & 0xffff]`, ..., for as long as it stays in reach,
    visits exactly the positions in reach before `i` whose four bytes hash to `h`, each
    once and in decreasing order. -/
def Chained (input : List UInt8) (i : Nat) (tables : Tables) : Prop :=
  ∀ hash, ∃ positions,
    Walks (fun p => tables.links.chain (UInt16.ofNat p)) (InReach i) (tables.links.head hash)
      positions ∧
    positions.Pairwise (· > ·) ∧
    ∀ p, p ∈ positions ↔ p < i ∧ InReach i p ∧ hashAt input p = hash

def Inserted (input : List UInt8) (i : Nat) (tables : Tables) : Prop :=
  Represents UInt16.ofNat (2 ^ 16) (hashAt input) i tables.links

def looksAhead (input : List UInt8) (s : Encoder) : Outcome Bool := do
  if input.length < s.i + lz4MfLimit then return false
  return wantsLookAhead input s.i (← searchAt input s.i s.tables)

/-- The hash chains are right at the start of every iteration of a run. -/
def KeepsChains (input output : List UInt8) : Prop :=
  ∀ s, Visits (compressTurn input) (Encoder.start output) s →
    s.i + lz4MfLimit ≤ input.length → Chained input s.i s.tables

/-! ### The tables as links -/

section Tables

variable {input : List UInt8} {i p : Nat} {tables : Tables}

theorem storedPosition_ofNat (h : p < 2 ^ 32 - 1) : storedPosition (UInt32.ofNat p) = some p := by
  have hword : p < 2 ^ 32 := by omega
  have htoNat : (UInt32.ofNat p).toNat = p := UInt32.toNat_ofNat_of_lt' hword
  have hne : UInt32.ofNat p ≠ noPosition := by
    intro heq
    rw [heq] at htoNat
    exact absurd htoNat (Nat.ne_of_gt h)
  rw [storedPosition, if_neg hne, htoNat]

theorem links_record (hash : Slot) (h : p < 2 ^ 32 - 1) :
    (tables.record hash p).links = tables.links.insert UInt16.ofNat hash p := by
  apply Links.ext
  · funext other
    by_cases hother : other = hash
    · subst hother
      simp [Tables.links, Tables.record, Links.insert, storedPosition_ofNat h]
    · simp [Tables.links, Tables.record, Links.insert, hother]
  · funext slot
    by_cases hslot : slot = UInt16.ofNat p
    · subst hslot
      simp [Tables.links, Tables.record, Links.insert]
    · simp [Tables.links, Tables.record, Links.insert, hslot]

/-- Positions that share a slot are a window apart. -/
theorem slot_ne (p q : Nat) (hlt : p < q) (hnear : q < p + 2 ^ 16) :
    UInt16.ofNat p ≠ UInt16.ofNat q := by
  intro h
  have hmod := congrArg UInt16.toNat h
  rw [UInt16.toNat_ofNat', UInt16.toNat_ofNat'] at hmod
  omega

theorem inserted_fresh (input : List UInt8) : Inserted input 0 Tables.fresh :=
  represents_empty

theorem Inserted.record (h : Inserted input i tables) (hi : i < 2 ^ 32 - 1) :
    Inserted input (i + 1) (tables.record (hashAt input i) i) := by
  rw [Inserted, links_record _ hi]
  exact Represents.insert h slot_ne

/-- What has been inserted once is found along the chains. -/
theorem Inserted.chained (h : Inserted input i tables) : Chained input i tables := by
  intro hash
  have hup : ∀ p q, p ≤ q → InReach i p → InReach i q := by
    unfold InReach
    intro p q hle hp
    omega
  have hreach : ∀ p, InReach i p → i ≤ p + 2 ^ 16 := by
    unfold InReach lz4MaxOffset
    intro p hp
    omega
  refine ⟨_, Represents.walks h hup hreach hash, ?_, ?_⟩
  · exact (occurrences_descending (hashAt input) hash i).filter _
  · intro p
    rw [List.mem_filter, mem_occurrences, decide_eq_true_iff, and_assoc,
      and_comm (a := hashAt input p = hash)]

/-- Along right chains every link in reach is empty or leads further back. -/
theorem Chained.link_lt (h : Chained input i tables) (hp : p < i) (hreach : InReach i p) :
    tables.chain (UInt16.ofNat p) = noPosition ∨ (tables.chain (UInt16.ofNat p)).toNat < p := by
  obtain ⟨positions, hwalk, hdescending, hmem⟩ := h (hashAt input p)
  have hvisited : p ∈ positions := (hmem p).mpr ⟨hp, hreach, rfl⟩
  have hclosed : ∀ q, ¬ InReach i q → q < p := by
    unfold InReach at hreach ⊢
    intro q hq
    omega
  by_cases hnone : tables.chain (UInt16.ofNat p) = noPosition
  · exact Or.inl hnone
  · exact Or.inr (hwalk.next_lt hdescending hclosed hvisited (if_neg hnone))

/-- The chains are wrong when a position in reach is linked to itself. -/
theorem not_chained_of_self (hp : p < i) (hreach : InReach i p)
    (hself : tables.links.chain (UInt16.ofNat p) = some p) : ¬ Chained input i tables := by
  intro h
  obtain ⟨positions, hwalk, -, hmem⟩ := h (hashAt input p)
  exact hwalk.not_mem_of_self hself ((hmem p).mpr ⟨hp, hreach, rfl⟩)

/-- The chains are wrong when they start at the current position. -/
theorem not_chained_of_head {hash : Slot} (hhead : tables.links.head hash = some i) :
    ¬ Chained input i tables := by
  intro h
  obtain ⟨positions, hwalk, -, hmem⟩ := h hash
  have hreach : InReach i i := by
    unfold InReach
    omega
  rw [hhead] at hwalk
  exact Nat.lt_irrefl i ((hmem i).mp (hwalk.mem_of_near hreach)).1

end Tables

/-! ### What a turn does to the tables -/

section Turn

variable {input : List UInt8} {s s' : Encoder} {tables tables' : Tables}

/-- The loop over the positions inside a match inserts each of them once. -/
theorem Inserted.insertInside {count inside : Nat} (h : Inserted input inside tables)
    (hin : inside + count + 3 ≤ input.length) (hlength : input.length < 2 ^ 32 - 1)
    (hrun : Lz4.insertInside input count inside tables = .done tables') :
    Inserted input (inside + count) tables' := by
  induction count generalizing inside tables with
  | zero =>
    obtain rfl := Outcome.done.inj hrun
    exact h
  | succ count ih =>
    rw [Lz4.insertInside, lz4Insert_eq (by omega), Outcome.done_bind] at hrun
    have hrest := ih (h.record (by omega)) (by omega) hrun
    rwa [Nat.add_assoc, Nat.add_comm 1 count] at hrest

/-- The loop over the positions inside a match leaves the slots of those before it. -/
theorem insertInside_chain {count inside p : Nat} (hin : inside + count + 3 ≤ input.length)
    (hp : p < inside) (hnear : inside + count ≤ p + 2 ^ 16)
    (hrun : insertInside input count inside tables = .done tables') :
    tables'.chain (UInt16.ofNat p) = tables.chain (UInt16.ofNat p) := by
  induction count generalizing inside tables with
  | zero =>
    obtain rfl := Outcome.done.inj hrun
    rfl
  | succ count ih =>
    rw [insertInside, lz4Insert_eq (by omega), Outcome.done_bind] at hrun
    rw [ih (by omega) (by omega) (by omega) hrun]
    exact Function.update_of_ne (slot_ne p inside hp (by omega)) _ _

/-- A turn of the loop that extends a match backwards ends it, or moves its start. -/
theorem extendBackTurn_cases {anchor candidate pos length : Nat}
    {t : Turn (Nat × Nat × Nat) (Nat × Nat × Nat)}
    (h : extendBackTurn input anchor (candidate, pos, length) = .done t) :
    t = .exit (candidate, pos, length) ∨
      (0 < pos ∧ t = .next (candidate - 1, pos - 1, length + 1)) := by
  simp only [extendBackTurn] at h
  split at h
  · next hmore =>
    obtain ⟨a, -, h⟩ := Outcome.bind_eq_done.mp h
    obtain ⟨b, -, h⟩ := Outcome.bind_eq_done.mp h
    split at h
    · exact Or.inr ⟨Nat.zero_lt_of_lt hmore.1, (Outcome.done.inj h).symm⟩
    · exact Or.inl (Outcome.done.inj h).symm
  · exact Or.inl (Outcome.done.inj h).symm

/-- Extending a match backwards leaves its end where it is. -/
theorem extendBack_end {anchor budget : Nat} {start start' : Nat × Nat × Nat}
    (h : loop (extendBackTurn input anchor) budget start = .done start') :
    start'.2.1 + start'.2.2 = start.2.1 + start.2.2 := by
  refine loop_inv (extendBackTurn input anchor) (fun s => s.2.1 + s.2.2 = start.2.1 + start.2.2)
    (fun s => s.2.1 + s.2.2 = start.2.1 + start.2.2) ?_ ?_ budget start start' rfl h
  · rintro ⟨candidate, pos, length⟩ s hend hturn
    rcases extendBackTurn_cases hturn with hexit | ⟨hpos, hnext⟩
    · cases hexit
    · obtain rfl := Turn.next.inj hnext
      simp only at hend ⊢
      omega
  · rintro ⟨candidate, pos, length⟩ s hend hturn
    rcases extendBackTurn_cases hturn with hexit | ⟨-, hnext⟩
    · obtain rfl := Turn.exit.inj hexit
      exact hend
    · cases hnext

/-- A sequence that has been written ends with its match, and so do the insertions. -/
theorem emitMatch_next {candidate matchLen : Nat}
    (h : emitMatch input s tables candidate matchLen = .done (.next s')) :
    s'.i = s.i + matchLen ∧
      insertInside input (s'.i - (s.i + 1)) (s.i + 1) tables = .done s'.tables := by
  unfold emitMatch at h
  obtain ⟨⟨start, pos, length⟩, hback, h⟩ := Outcome.bind_eq_done.mp h
  obtain ⟨literalLen, -, h⟩ := Outcome.bind_eq_done.mp h
  obtain ⟨matchCode, -, h⟩ := Outcome.bind_eq_done.mp h
  obtain ⟨offset, -, h⟩ := Outcome.bind_eq_done.mp h
  obtain ⟨⟨_ | pos', output⟩, -, h⟩ := Outcome.bind_eq_done.mp h
  · cases Outcome.done.inj h
  obtain ⟨⟨_ | pos', output⟩, -, h⟩ := Outcome.bind_eq_done.mp h
  · cases Outcome.done.inj h
  obtain ⟨tables', hinsert, h⟩ := Outcome.bind_eq_done.mp h
  obtain rfl := Turn.next.inj (Outcome.done.inj h)
  exact ⟨extendBack_end hback, hinsert⟩

/-- A turn that goes on moves by at least one byte, and inserts what it passes over. -/
theorem afterSearch_next {found : Option (Nat × Nat)} {step : Bool × Tables}
    (hlong : ∀ start length, found = some (start, length) → lz4MinMatch ≤ length)
    (h : afterSearch input s found step = .done (.next s')) :
    s.i < s'.i ∧ insertInside input (s'.i - (s.i + 1)) (s.i + 1) step.2 = .done s'.tables ∧
      (s'.i = s.i + 1 ∨ ∃ start length, found = some (start, length) ∧ s'.i = s.i + length) := by
  have hone : s.i + 1 - (s.i + 1) = 0 := Nat.sub_self _
  obtain ⟨deferred, tables⟩ := step
  cases found with
  | none =>
    obtain rfl := Turn.next.inj (Outcome.done.inj h)
    exact ⟨Nat.lt_succ_self _, by rw [hone]; rfl, Or.inl rfl⟩
  | some best =>
    obtain ⟨start, length⟩ := best
    cases deferred with
    | true =>
      obtain rfl := Turn.next.inj (Outcome.done.inj h)
      exact ⟨Nat.lt_succ_self _, by rw [hone]; rfl, Or.inl rfl⟩
    | false =>
      obtain ⟨hmoved, hinsert⟩ := emitMatch_next h
      have hfour := hlong start length rfl
      unfold lz4MinMatch at hfour
      exact ⟨by omega, hinsert, Or.inr ⟨start, length, rfl, hmoved⟩⟩

theorem looksAhead_eq (h : s.i + lz4MfLimit ≤ input.length) :
    looksAhead input s = .done (wantsLookAhead input s.i (foundAt input s.i s.tables)) := by
  rw [looksAhead, if_neg (Nat.not_lt.mpr h), searchAt_eq h]
  rfl

def searchTables (input : List UInt8) (s : Encoder) (ahead : Bool) : Tables :=
  let tables := s.tables.record (hashAt input s.i) s.i
  if ahead then tables.record (hashAt input (s.i + 1)) (s.i + 1) else tables

/-- **What a turn does to the tables.** It inserts its own position, the next one if it
    looks ahead, and then every position that it passes over. -/
theorem compressTurn_next (h : compressTurn input s = .done (.next s')) :
    ∃ ahead, looksAhead input s = .done ahead ∧ s.i < s'.i ∧
      insertInside input (s'.i - (s.i + 1)) (s.i + 1) (searchTables input s ahead) =
        .done s'.tables ∧
      (ahead = true → s'.i < s.i + lz4HcLazyLength) := by
  by_cases hend : input.length < s.i + lz4MfLimit
  · rw [compressTurn, if_pos hend] at h
    obtain ⟨r, -, hexit⟩ := Outcome.bind_eq_done.mp h
    cases Outcome.done.inj hexit
  have hroom : s.i + lz4MfLimit ≤ input.length := Nat.not_lt.mp hend
  have hstep : (lazyStep input s.i (foundAt input s.i s.tables)
      (s.tables.record (hashAt input s.i) s.i)).2 =
        searchTables input s (wantsLookAhead input s.i (foundAt input s.i s.tables)) := by
    unfold lazyStep searchTables
    split <;> rfl
  rw [compressTurn_eq hroom] at h
  obtain ⟨hlt, hinsert, hmoved⟩ :=
    afterSearch_next (fun _ _ hsome => (foundAt_maximalMatch hroom hsome).long) h
  rw [hstep] at hinsert
  refine ⟨_, looksAhead_eq hroom, hlt, hinsert, fun hwants => ?_⟩
  rcases hmoved with hone | ⟨start, length, hfound, hmoved⟩
  · unfold lz4HcLazyLength
    omega
  · rw [hfound] at hwants
    have hshort := (of_decide_eq_true hwants).1
    omega

/-- A turn that does not look ahead inserts every position that it passes over once. -/
theorem compressTurn_inserted (hs : Inserted input s.i s.tables)
    (hlength : input.length < 2 ^ 32 - 1) (hquiet : looksAhead input s ≠ .done true)
    (h : compressTurn input s = .done (.next s')) (hroom : s'.i + lz4MfLimit ≤ input.length) :
    Inserted input s'.i s'.tables := by
  obtain ⟨ahead, hahead, hlt, hinsert, -⟩ := compressTurn_next h
  unfold lz4MfLimit at hroom
  cases ahead with
  | true => exact absurd hahead hquiet
  | false =>
    have hend : s.i + 1 + (s'.i - (s.i + 1)) = s'.i := by omega
    have hinserted := (hs.record (by omega)).insertInside (by omega) hlength hinsert
    rwa [hend] at hinserted

/-- **A turn that looks ahead breaks the chains.** The next position is inserted twice: it
    is at the head of its chain when it is searched again, or it is linked to itself. -/
theorem compressTurn_not_chained (hlength : input.length < 2 ^ 32 - 1)
    (hahead : looksAhead input s = .done true) (h : compressTurn input s = .done (.next s'))
    (hroom : s'.i + lz4MfLimit ≤ input.length) : ¬ Chained input s'.i s'.tables := by
  obtain ⟨ahead, hahead', hlt, hinsert, hshort⟩ := compressTurn_next h
  obtain rfl : ahead = true := Outcome.done.inj (hahead'.symm.trans hahead)
  have hnear := hshort rfl
  unfold lz4MfLimit at hroom
  unfold lz4HcLazyLength at hnear
  have hstored : storedPosition (UInt32.ofNat (s.i + 1)) = some (s.i + 1) :=
    storedPosition_ofNat (by omega)
  have hhead : (searchTables input s true).head (hashAt input (s.i + 1)) =
      UInt32.ofNat (s.i + 1) := Function.update_self _ _ _
  rcases Nat.eq_or_lt_of_le (show s.i + 1 ≤ s'.i from hlt) with hone | hmore
  · rw [← hone, Nat.sub_self] at hinsert
    have htables : searchTables input s true = s'.tables := Outcome.done.inj hinsert
    rw [htables] at hhead
    rw [hone] at hhead hstored
    exact not_chained_of_head ((congrArg storedPosition hhead).trans hstored)
  · obtain ⟨count, hcount⟩ : ∃ count, s'.i - (s.i + 1) = count + 1 :=
      ⟨s'.i - (s.i + 1) - 1, by omega⟩
    rw [hcount, insertInside, lz4Insert_eq (by omega), Outcome.done_bind] at hinsert
    have hchain := insertInside_chain (p := s.i + 1) (by omega) (by omega) (by omega) hinsert
    have hslot : ((searchTables input s true).record (hashAt input (s.i + 1)) (s.i + 1)).chain
        (UInt16.ofNat (s.i + 1)) = UInt32.ofNat (s.i + 1) := by
      rw [← hhead]
      exact Function.update_self _ _ _
    apply not_chained_of_self hmore
    · unfold InReach lz4MaxOffset
      omega
    · exact (congrArg storedPosition (hchain.trans hslot)).trans hstored

end Turn

/-! ### Whole runs -/

/-- Up to an iteration that no look-ahead comes before, every position has been inserted once. -/
theorem inserted_of_quiet {input output : List UInt8} (hlength : input.length < 2 ^ 32 - 1)
    (hquiet : ∀ s s', Visits (compressTurn input) (Encoder.start output) s →
      compressTurn input s = .done (.next s') → s'.i + lz4MfLimit ≤ input.length →
      looksAhead input s ≠ .done true)
    {s : Encoder} (hvisits : Visits (compressTurn input) (Encoder.start output) s)
    (hroom : s.i + lz4MfLimit ≤ input.length) : Inserted input s.i s.tables := by
  induction hvisits with
  | refl => exact inserted_fresh input
  | next before step ih =>
    obtain ⟨-, -, hlt, -⟩ := compressTurn_next step
    have hbefore := ih (by omega)
    exact compressTurn_inserted hbefore hlength (hquiet _ _ before step hroom) step hroom

/-- **The hash chains are right at every iteration** exactly in a run in which no iteration
    that another one follows looks ahead. Where they are right, the link of every
    position in reach is empty or leads further back. -/
theorem keepsChains_iff (input output : List UInt8) (hlength : input.length < 2 ^ 32 - 1) :
    (KeepsChains input output ↔
      ∀ s s', Visits (compressTurn input) (Encoder.start output) s →
        compressTurn input s = .done (.next s') → s'.i + lz4MfLimit ≤ input.length →
        looksAhead input s ≠ .done true) ∧
    ∀ i tables, Chained input i tables → ∀ p, p < i → InReach i p →
      tables.chain (UInt16.ofNat p) = noPosition ∨
        (tables.chain (UInt16.ofNat p)).toNat < p := by
  constructor
  · constructor
    · intro hkeeps s s' hvisits hturn hroom hahead
      exact compressTurn_not_chained hlength hahead hturn hroom
        (hkeeps s' (.next hvisits hturn) hroom)
    · intro hquiet s hvisits hroom
      apply Inserted.chained
      exact inserted_of_quiet hlength hquiet hvisits hroom
  · intro i tables hchained p hp hreach
    exact hchained.link_lt hp hreach

def runInput : List UInt8 :=
  List.replicate 140 0 ++ [1, 2, 3, 4, 5, 6, 7, 8, 9, 10, 11, 12, 13, 14]

/-- The match of 139 bytes is long enough not to look ahead, and the iterations behind it
    find its positions linked. -/
theorem keepsChains_iff_run : KeepsChains runInput (List.replicate 64 0) := by
  refine (keepsChains_iff runInput (List.replicate 64 0) (by decide +kernel)).1.mpr ?_
  rintro s s' hvisits - - hahead
  obtain ⟨count, hcount⟩ := hvisits.exists_stateAfter
  have hover : stateAfter (compressTurn runInput) (Encoder.start (List.replicate 64 0)) 6 = none :=
    by decide +kernel
  have hquiet : ∀ count < 6,
      (stateAfter (compressTurn runInput) (Encoder.start (List.replicate 64 0)) count).map
        (looksAhead runInput) ≠ some (.done true) := by decide +kernel
  rcases Nat.lt_or_ge count 6 with hlt | hge
  · refine hquiet count hlt ?_
    rw [hcount, Option.map_some, hahead]
  · rw [stateAfter_eq_none hover hge] at hcount
    cases hcount

/-- Five equal bytes, and twelve others: the four bytes at 1 repeat those at 0. -/
def repeatedInput : List UInt8 := [0, 0, 0, 0, 0, 1, 2, 3, 4, 5, 6, 7, 8, 9, 10, 11, 12]

/-- The iteration at 1 looks ahead to 2, and the loop inside its match inserts 2 again. -/
theorem repeatedInput_not_kept : ¬ KeepsChains repeatedInput (List.replicate 64 0) := by
  have hrun : (stateAfter (compressTurn repeatedInput) (Encoder.start (List.replicate 64 0)) 2).map
      (fun s => (s.i, s.tables.links.chain 2)) = some (5, some 2) := by decide +kernel
  obtain ⟨s, hs, hstate⟩ := Option.map_eq_some_iff.mp hrun
  obtain ⟨hi, hself⟩ := Prod.mk.inj hstate
  intro hkeeps
  have hchained := hkeeps s (visits_of_stateAfter hs) (by rw [hi]; decide)
  refine not_chained_of_self (p := 2) ?_ ?_ hself hchained
  · rw [hi]
    decide
  · rw [hi]
    decide

end ImgTools.Lz4
