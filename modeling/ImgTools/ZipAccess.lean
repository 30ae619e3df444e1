import ImgTools.Access
import ImgTools.ZipDialogue
import ImgTools.ZipTiles
import ImgTools.FdSource

/-!
# What a listing reads

The archive is never loaded wholesale: a listing reads the tail, at most one ZIP64
end record, the central directory, and the fixed part of one local header for each
record of the directory. `Logged` is a source that keeps the ranges it is asked for.
-/

namespace ImgTools

open Exec

abbrev Request := UInt64 × Nat

structure Logged (S : Type) where
  source : S
  log : List Request
deriving DecidableEq

instance {S : Type} [ByteSource S] : ByteSource (Logged S) where
  size self := ByteSource.size self.source
  read offset length := ⟨fun self => do
    let (result, source) ← (ByteSource.read offset length).run self.source
    return (result, ⟨source, self.log ++ [(offset, length)]⟩)⟩

/-- A source whose reads return vectors that 64-bit words can index. -/
def Indexed (S : Type) [ByteSource S] : Prop :=
  ∀ offset length (s s' : S) bytes, (ByteSource.read offset length).run s = .done (.ok bytes, s') →
    bytes.length < 2 ^ 64

theorem memory_indexed (B : Build) : Indexed (MemorySource B) := by
  intro offset length s s' bytes hrun
  by_cases hle : offset.toNat ≤ s.bytes.length
  · cases (MemorySource.read_of_le s offset length hle).symm.trans hrun
    have hfits := s.fits.trans B.isizeMax_le
    rw [List.length_take, List.length_drop]
    omega
  · rcases MemorySource.read_of_lt s offset length (Nat.lt_of_not_le hle) with hread | hread
    · cases hread.symm.trans hrun
      exact Nat.two_pow_pos 64
    · cases hread.symm.trans hrun

theorem length_copyFromSlice {α : Type} {xs src ys : List α} {lo hi : Nat}
    (h : copyFromSlice xs lo hi src = .done ys) : ys.length = xs.length := by
  unfold copyFromSlice at h
  split at h
  · cases h
  · split at h
    · cases h
    · split at h
      · cases h
      · cases h
        simp only [List.length_append, List.length_take, List.length_drop]
        omega

namespace FdSource

/-- A turn that leaves a buffer of `actual` bytes, or returns no more than that. -/
def Keeps {B : Build} (actual : Nat) :
    Turn (Progress B) (Except ByteSourceError (List UInt8) × FdSource B) → Prop
  | .next state => state.output.length = actual
  | .exit outcome => ∀ bytes, outcome.1 = .ok bytes → bytes.length ≤ actual

variable {B : Build} {actual : Nat}

theorem keeps_of_received {self : FdSource B} {output : List UInt8} {done : Nat}
    (hlength : output.length = actual) {transfer : Transfer} {turn}
    (h : received self output done transfer = .done turn) : Keeps actual turn := by
  match transfer, h with
  | .interrupted, h =>
    cases h
    exact hlength
  | .failed message, h =>
    cases h
    rintro bytes ⟨⟩
  | .bytes [], h =>
    cases h
    rintro bytes ⟨⟩
    rw [List.length_take, hlength]
    exact Nat.min_le_right _ _
  | .bytes (byte :: data), h =>
    obtain ⟨copied, hcopy, h⟩ := Outcome.bind_eq_done.mp h
    obtain ⟨sum, -, h⟩ := Outcome.bind_eq_done.mp h
    cases h
    exact (length_copyFromSlice hcopy).trans hlength

theorem keeps_of_readTurn {offset : UInt64} {state : Progress B}
    (hlength : state.output.length = actual) {turn}
    (h : readTurn offset actual state = .done turn) : Keeps actual turn := by
  unfold readTurn at h
  split at h
  · split at h
    · cases h
      rintro bytes ⟨⟩
    · split at h
      · cases h
        rintro bytes ⟨⟩
      · exact keeps_of_received hlength h
  · cases h
    rintro bytes ⟨⟩
    exact Nat.le_of_eq hlength

end FdSource

theorem descriptor_indexed (B : Build) : Indexed (FdSource B) := by
  intro offset length s s' bytes hrun
  have hread : (FdSource.read offset length).run s = .done (.ok bytes, s') := hrun
  rw [FdSource.read, Reading.bind_of_ok (Reading.ask_run id s)] at hread
  dsimp only [id] at hread
  split at hread
  · cases hread
    exact Nat.two_pow_pos 64
  · obtain ⟨output, s₁, hbuffer, hloop⟩ := Reading.bind_eq_ok.mp hread
    rw [Reading.lift_run] at hbuffer
    obtain ⟨zeroed, hzeroed, heq⟩ := Outcome.bind_eq_done.mp hbuffer
    cases heq
    obtain ⟨actual, hactual⟩ : ∃ actual,
        actual = min (s.size.toNat - offset.toNat) length % 2 ^ B.usizeBits := ⟨_, rfl⟩
    have hfits : actual < 2 ^ 64 := by
      rw [hactual]
      exact Nat.lt_of_lt_of_le (Nat.mod_lt _ (Nat.two_pow_pos _))
        (Nat.pow_le_pow_right (by decide) B.usizeBits_le)
    rw [← hactual] at hzeroed hloop
    have hlength : output.length = actual := by
      unfold Build.zeroed at hzeroed
      split at hzeroed
      · cases hzeroed
        exact List.length_replicate
      · cases hzeroed
    have hkept := loop_inv (FdSource.readTurn offset actual)
      (fun state => state.output.length = actual)
      (fun outcome => ∀ bytes, outcome.1 = .ok bytes → bytes.length ≤ actual)
      (fun _ _ h hturn => FdSource.keeps_of_readTurn h hturn)
      (fun _ _ h hturn => FdSource.keeps_of_readTurn h hturn) _ _ _ hlength hloop
    exact Nat.lt_of_le_of_lt (hkept bytes rfl) hfits

/-- A read of two memories of one length that have the same bytes there. -/
theorem MemorySource.read_congr {B : Build} {self other : MemorySource B} (offset : UInt64)
    (length : Nat) (hlength : other.bytes.length = self.bytes.length)
    (hsame : (other.bytes.drop offset.toNat).take length =
      (self.bytes.drop offset.toNat).take length) :
    ∃ answer, (read offset length).run self = .done (answer, self) ∧
      (read offset length).run other = .done (answer, other) := by
  by_cases hle : offset.toNat ≤ self.bytes.length
  · refine ⟨_, read_of_le self offset length hle, ?_⟩
    rw [read_of_le other offset length (by omega), hsame]
  · rw [read, Reading.bind_of_ok (Reading.ask_run id self), Reading.bind_of_ok
      (Reading.ask_run id other)]
    by_cases hstart : offset.toNat < 2 ^ B.usizeBits
    · refine ⟨.ok [], ?_, ?_⟩
      · simp only [Build.usizeFrom, if_pos hstart, id, if_pos (Nat.lt_of_not_le hle)]
        rfl
      · simp only [Build.usizeFrom, if_pos hstart, id, hlength, if_pos (Nat.lt_of_not_le hle)]
        rfl
    · refine ⟨.error .outOfRange, ?_, ?_⟩
      · simp only [Build.usizeFrom, if_neg hstart]
        rfl
      · simp only [Build.usizeFrom, if_neg hstart]
        rfl

namespace Zip

/-! ### The protocol of a listing -/

inductive Stage where
  | start
  | tail
  | record
  | directory (length headers : Nat)
deriving DecidableEq, Repr

/-- The reads of a listing of an archive of `size` bytes. -/
inductive Step (size : UInt64) : Stage → Request → Stage → Prop where
  | tail : Step size .start
      (UInt64.ofNat (size.toNat - min END_RECORD_WINDOW size.toNat),
        min END_RECORD_WINDOW size.toNat) .tail
  | record (offset : UInt64) : Step size .tail (offset, 56) .record
  | directory {stage : Stage} (h : stage = .tail ∨ stage = .record) (offset : UInt64)
      (length : Nat) : Step size stage (offset, length) (.directory length 0)
  | header {length headers : Nat} (h : 46 * (headers + 1) ≤ length) (offset : UInt64) :
      Step size (.directory length headers) (offset, 30) (.directory length (headers + 1))

/-- The bytes that may have been asked for at a stage. -/
def Stage.budget : Stage → Nat
  | .start => 0
  | .tail => END_RECORD_WINDOW
  | .record => END_RECORD_WINDOW + 56
  | .directory length headers => END_RECORD_WINDOW + 56 + length + 30 * headers

/-- A step pays for its request. -/
theorem Step.budget_le {size : UInt64} {stage stage' : Stage} {request : Request}
    (h : Step size stage request stage') : stage.budget + request.2 ≤ stage'.budget := by
  cases h with
  | tail =>
    simp only [Stage.budget]
    omega
  | record offset => exact Nat.le_refl _
  | directory h offset length =>
    rcases h with rfl | rfl
    · simp only [Stage.budget]
      omega
    · simp only [Stage.budget]
      omega
  | header h offset =>
    simp only [Stage.budget]
    omega

def Stage.Covered : Stage → Prop
  | .directory length headers => 46 * headers ≤ length
  | _ => True

theorem Step.covered {size : UInt64} {stage stage' : Stage} {request : Request}
    (h : Step size stage request stage') : stage'.Covered := by
  cases h with
  | tail => trivial
  | record offset => trivial
  | directory h offset length => exact Nat.zero_le _
  | header h offset => exact h

/-- The requests of a log are within the budget of its stage. -/
theorem Reaches.budget {size : UInt64} {log : List Request} {stage : Stage}
    (h : Reaches (Step size) .start log stage) :
    (log.map Prod.snd).sum ≤ stage.budget ∧ stage.Covered := by
  refine h.invariant (I := fun log stage =>
    (log.map Prod.snd).sum ≤ stage.budget ∧ stage.Covered) ⟨Nat.le_refl 0, trivial⟩ ?_
  rintro log stage request stage' ⟨hsum, -⟩ hstep
  refine ⟨?_, hstep.covered⟩
  have hpaid := hstep.budget_le
  rw [List.map_append, List.sum_append, List.map_singleton, List.sum_singleton]
  omega

/-! ### The code follows the protocol -/

/-- A directory that was read whole has the length that was asked for. -/
theorem length_of_whole {B : Build} {central : List UInt8} {size : UInt64} {length : Nat}
    (hlt : central.length < 2 ^ 64) (hwhole : UInt64.ofNat central.length = size)
    (hlength : B.usizeFrom size = some length) : central.length = length := by
  rw [(Build.usizeFrom_eq_some.mp hlength).2, ← hwhole, UInt64.toNat_ofNat_of_lt' hlt]

section Reader

variable {S : Type} [ByteSource S] {size : UInt64} {P : Logged S → Prop} {stage stage' : Stage}

abbrev Moves {α : Type} (size : UInt64) (P : Logged S → Prop) (stage : Stage)
    (x : Reading (Logged S) ZipError α) (Q : α → Stage → Prop) : Prop :=
  Reading.Moves (Step size) Logged.log .start P stage x Q

/-- A read that the protocol has a step for. -/
theorem readSource_moves (hindexed : Indexed S) {offset : UInt64} {length : Nat}
    (hstep : Step size stage (offset, length) stage') :
    Moves size P stage (readSource (S := Logged S) offset length) fun bytes τ =>
      bytes.length < 2 ^ 64 ∧ τ = stage' := by
  refine .request hstep ?_ ?_
  · intro s result s' hrun
    obtain ⟨⟨read, s₁⟩, hread, hrest⟩ := Outcome.bind_eq_done.mp hrun
    obtain ⟨⟨bytes, source⟩, -, hlogged⟩ := Outcome.bind_eq_done.mp hread
    cases hlogged
    cases hrest
    rfl
  · intro s bytes s' hrun
    obtain ⟨⟨read, s₁⟩, hread, hrest⟩ := Outcome.bind_eq_done.mp hrun
    obtain ⟨⟨result, source⟩, hsource, hlogged⟩ := Outcome.bind_eq_done.mp hread
    cases hlogged
    cases read with
    | ok bytes' =>
      cases hrest
      exact ⟨hindexed offset length _ _ _ hsource, rfl⟩
    | error e => cases hrest

section Indexed

variable (hindexed : Indexed S)

include hindexed

theorem zip64End_moves (tail : List UInt8) (locator : Nat) :
    Moves size P .tail (zip64End (S := Logged S) tail locator) fun _ τ =>
      τ = .tail ∨ τ = .record := by
  refine .bind (.except _) fun recordOffset τ hτ => ?_
  subst hτ
  refine .bind (readSource_moves hindexed (.record recordOffset)) fun record64 τ hτ => ?_
  exact (Reading.Moves.except _).mono fun _ _ heq => Or.inr (heq.trans hτ.2)

theorem endAt_moves (tail : List UInt8) (eocd : Nat) :
    Moves size P .tail (endAt (S := Logged S) tail eocd) fun _ τ => τ = .tail ∨ τ = .record := by
  refine .bind (.except _) fun record τ hτ => ?_
  subst hτ
  cases checkedSub eocd 20 with
  | none => exact .pure (Or.inl rfl)
  | some locator =>
    dsimp only
    split
    · exact zip64End_moves hindexed tail locator
    · split
      · exact .fail _
      · exact .pure (Or.inl rfl)

theorem readEnd_moves :
    Moves size (fun s => ByteSource.size s.source = size) .start (readEnd (S := Logged S))
      fun _ τ => τ = .tail ∨ τ = .record := by
  refine .bind (.ask _) fun n τ hτ => ?_
  obtain ⟨rfl, s, hs, rfl⟩ := hτ
  have hsize : ByteSource.size s = size := hs
  rw [hsize]
  split
  · exact .fail _
  · refine .bind (readSource_moves hindexed .tail) fun tail τ hτ => ?_
    rw [hτ.2]
    cases findEocd tail with
    | none => exact .fail _
    | some eocd => exact endAt_moves hindexed tail eocd

theorem dataOffset_moves (name : String) (localOffset : UInt64) {length headers : Nat}
    (hroom : 46 * (headers + 1) ≤ length) :
    Moves size P (.directory length headers) (dataOffset (S := Logged S) name localOffset)
      fun _ τ => τ = .directory length (headers + 1) := by
  refine .bind (readSource_moves hindexed (.header hroom localOffset)) fun header τ hτ => ?_
  rw [hτ.2]
  split
  · exact .fail _
  · refine .bind (.except _) fun localNameLen τ hτ => ?_
    subst hτ
    refine .bind (.except _) fun localExtraLen τ hτ => ?_
    subst hτ
    refine .bind (.except _) fun start τ hτ => ?_
    subst hτ
    refine .bind (.except _) fun lengths τ hτ => ?_
    subst hτ
    exact .except _

variable (B : Build)

/-- The directory is read whole, from the tail or from the ZIP64 record on. -/
theorem readDirectory_moves :
    Moves size (fun s => ByteSource.size s.source = size) .start
      (readDirectory (S := Logged S) B) fun (_, central) τ =>
        ∃ length, central.length ≤ length ∧ τ = .directory length 0 := by
  refine .bind (readEnd_moves hindexed) fun record τ hτ => ?_
  cases hlength : B.usizeFrom record.centralSize with
  | none => exact .fail _
  | some length =>
    refine .bind (readSource_moves hindexed (.directory hτ record.centralOffset length))
      fun central τ hτ => ?_
    split
    · exact .fail _
    · next hsame =>
      exact .pure ⟨length, Nat.le_of_eq (length_of_whole hτ.1 (not_not.mp hsame) hlength), hτ.2⟩

/-- The walk reads one header for each record that it has met. -/
theorem walk_moves {central : List UInt8} {length : Nat} (hcentral : central.length ≤ length)
    (count index cursor : Nat) (hcursor : 46 * index ≤ cursor) :
    Moves size P (.directory length index) (walk (S := Logged S) B central count index cursor)
      fun entries τ => τ = .directory length (index + entries.length) := by
  induction count generalizing P index cursor with
  | zero => exact .pure rfl
  | succ count ih =>
    have hrecord : Moves size P (.directory length index)
        (liftM (centralRecord B central index cursor) : Reading (Logged S) ZipError _)
        fun record τ => τ = .directory length index ∧ cursor + 46 ≤ record.next ∧
          record.next ≤ central.length :=
      .lift fun record hok => ⟨rfl, (centralRecord_stops central index cursor).of_ok hok⟩
    refine .bind hrecord fun record τ hτ => ?_
    obtain ⟨rfl, hnext, hle⟩ := hτ
    refine .bind (dataOffset_moves hindexed _ _ (by omega)) fun dataOffset τ hτ => ?_
    subst hτ
    refine .bind (ih (index + 1) record.next (by omega)) fun entries τ hτ => ?_
    subst hτ
    refine .pure ?_
    rw [List.length_cons, Nat.add_assoc, Nat.add_comm 1]

theorem list_moves :
    Moves size (fun s => ByteSource.size s.source = size) .start (list (S := Logged S) B)
      fun entries τ => ∃ length, τ = .directory length entries.length := by
  refine .bind (readDirectory_moves hindexed B) fun (record, central) τ hτ => ?_
  obtain ⟨length, hcentral, rfl⟩ := hτ
  have hcapacity : Moves size (fun _ => True) (.directory length 0)
      (liftM (withCapacity B (requestedCapacity B record)) : Reading (Logged S) ZipError _)
      fun _ τ => τ = .directory length 0 := .lift fun _ _ => rfl
  refine .bind hcapacity fun _ τ hτ => ?_
  subst hτ
  refine (walk_moves hindexed B hcentral record.entryCount.toNat 0 0 (Nat.le_refl 0)).mono ?_
  rintro entries τ rfl
  exact ⟨length, by rw [Nat.zero_add]⟩

end Indexed

end Reader

/-- **The reads of a listing.** Every listing of every source reads the
    tail, at most one end record of 56 bytes, a directory, and then headers of 30 bytes,
    no more of them than the directory has room for records; a listing that is
    returned has read one header for each of its entries. -/
theorem list_access (B : Build) {S : Type} [ByteSource S] (hindexed : Indexed S) (s : S)
    {result : Except ZipError (List ZipEntry)} {s' : S} {log : List Request}
    (hrun : (list B).run (⟨s, []⟩ : Logged S) = .done (result, ⟨s', log⟩)) :
    ∃ stage, Reaches (Step (ByteSource.size s)) .start log stage ∧
      (log.map Prod.snd).sum ≤ stage.budget ∧ stage.Covered ∧
      ∀ entries, result = .ok entries → ∃ length, stage = .directory length entries.length := by
  have hmoves : Moves (ByteSource.size s) _ .start (list (S := Logged S) B) _ :=
    list_moves hindexed B
  obtain ⟨stage, hreached, hstage⟩ := hmoves ⟨s, []⟩ result ⟨s', log⟩ rfl .start hrun
  obtain ⟨hsum, hcovered⟩ := Reaches.budget hreached
  exact ⟨stage, hreached, hsum, hcovered, hstage⟩

/-- The reads of the listing of one entry. -/
theorem list_logged :
    (list (.wide .release)).run (⟨counted, []⟩ : Logged (MemorySource (.wide .release))) =
      .done (.ok [nameless], ⟨counted, [(0, 98), (30, 46), (0, 30)]⟩) := by
  decide +kernel

theorem list_access_counted :
    ∃ stage, Reaches (Step (ByteSource.size counted)) .start [(0, 98), (30, 46), (0, 30)] stage ∧
      98 + (46 + (30 + 0)) ≤ stage.budget ∧ stage.Covered ∧
      ∀ entries, (.ok [nameless] : Except ZipError _) = .ok entries →
        ∃ length, stage = .directory length entries.length :=
  list_access (.wide .release) (memory_indexed _) counted list_logged

end Zip

end ImgTools
