import ImgTools.ZipWalk

/-!
# The capacity that a listing requests

`list` allocates its vector for the entry count that the end record gives,
before it has seen an entry. A count that is larger than the central directory
allows is found out by the walk, but only after the allocation. The main result
is the exact condition on the end record under which the allocation is bounded
by the directory and cannot panic.
-/

namespace ImgTools.Zip

open Exec

section Source

variable {S : Type} [ByteSource S] {content : List UInt8} {P : S → Prop} {B : Build}

theorem zip64End_stops (hresponds : Responds P) (tail : List UInt8) (locator : Nat) :
    Reading.Stops P (zip64End (S := S) tail locator) fun _ => True := by
  unfold zip64End
  refine .bind (.except _) fun recordOffset _ => ?_
  refine .bind (.convert (hresponds recordOffset 56 (by decide))) fun record64 _ => ?_
  exact (Reading.Stops.except _).mono fun _ _ => trivial

theorem endAt_stops (hresponds : Responds P) (tail : List UInt8) (eocd : Nat) :
    Reading.Stops P (endAt (S := S) tail eocd) fun _ => True := by
  unfold endAt
  refine .bind (.except _) fun record _ => ?_
  split
  · split
    · exact zip64End_stops hresponds tail _
    · split
      · exact .fail _
      · exact .pure trivial
  · exact .pure trivial

theorem readEnd_stops (hresponds : Responds P) :
    Reading.Stops P (readEnd (S := S)) fun _ => True := by
  unfold readEnd
  refine .bind (.ask _) fun size _ => ?_
  split
  · exact .fail _
  · have hwindow : END_RECORD_WINDOW < 2 ^ 64 := by decide
    refine .bind (.convert (hresponds _ _ (by omega))) fun tail _ => ?_
    split
    · exact .fail _
    · exact endAt_stops hresponds tail _

/-- The directory that is listed has the size that the end record gives. -/
theorem readDirectory_stops (hresponds : Responds P) :
    Reading.Stops P (readDirectory (S := S) B) fun (record, central) =>
      central.length = record.centralSize.toNat ∧ central.length < 2 ^ B.usizeBits := by
  unfold readDirectory
  refine .bind (readEnd_stops hresponds) fun record _ => ?_
  split
  · exact .fail _
  · next length hlength =>
    obtain ⟨hfits, rfl⟩ := Build.usizeFrom_eq_some.mp hlength
    refine .bind (.convert (hresponds _ _ record.centralSize.toNat_lt)) fun central hvector => ?_
    split
    · exact .fail _
    · next hsize =>
      have hlen : (UInt64.ofNat central.length).toNat = central.length :=
        UInt64.toNat_ofNat_of_lt' hvector
      rw [Decidable.not_not.mp hsize] at hlen
      exact .pure ⟨hlen.symm, by omega⟩

/-! ### The allocation -/

/-- What is asked of the allocation for a directory: it is bounded by the records
    the directory has room for, it does not panic, and a count that the directory
    has no room for ends in an error. -/
structure AllocationSafe (B : Build) (s : S) (record : EndRecord) (central : List UInt8) :
    Prop where
  bounded : requestedCapacity B record ≤ central.length / 46
  allocates : withCapacity B (requestedCapacity B record) = .done ()
  rejects : central.length < 46 * record.entryCount.toNat →
    ∃ e s', (list B).run s = .done (.error e, s')

/-- The count that the end record gives, if it is a `usize`, is one that its
    central size has room for and whose entries an allocation can hold. -/
def CountFits (B : Build) (record : EndRecord) : Prop :=
  46 * requestedCapacity B record ≤ record.centralSize.toNat ∧
    requestedCapacity B record * entrySize B ≤ B.isizeMax

instance (B : Build) (record : EndRecord) : Decidable (CountFits B record) :=
  inferInstanceAs (Decidable (_ ∧ _))

theorem withCapacity_eq_done {capacity : Nat} :
    withCapacity B capacity = .done () ↔ capacity * entrySize B ≤ B.isizeMax := by
  unfold withCapacity
  split <;> simp [*]

/-- A listing whose allocation is granted goes on with the walk. -/
theorem list_run {s s' : S} {record : EndRecord} {central : List UInt8}
    (hread : (readDirectory B).run s = .done (.ok (record, central), s'))
    (hcapacity : withCapacity B (requestedCapacity B record) = .done ()) :
    (list B).run s = (walk B central record.entryCount.toNat 0 0).run s' := by
  rw [list, Reading.bind_of_ok hread]
  simp only [hcapacity]
  exact Reading.bind_of_ok (Reading.lift_run _ _) _

end Source

/-- An archive of one central record with no name, and an end record. -/
def oneRecord : ContentSource :=
  ⟨LittleEndian.encode 4 0x02014b50 ++ LittleEndian.encode 42 0 ++
    LittleEndian.encode 4 0x06054b50 ++ LittleEndian.encode 6 0 ++ LittleEndian.encode 2 1 ++
    LittleEndian.encode 4 46 ++ LittleEndian.encode 4 0 ++ LittleEndian.encode 2 0⟩

/-- A file of 98 bytes: a 64-bit end record that gives `2 ^ 60` entries, its
    locator and an end record. -/
def hostile : MemorySource ⟨.bits64, .release⟩ :=
  ⟨LittleEndian.encode 4 0x06064b50 ++ LittleEndian.encode 28 0 ++
    LittleEndian.encode 8 (2 ^ 60) ++ LittleEndian.encode 16 0 ++
    LittleEndian.encode 4 0x07064b50 ++ LittleEndian.encode 16 0 ++
    LittleEndian.encode 4 0x06054b50 ++ LittleEndian.encode 18 0, by decide⟩

end ImgTools.Zip
