import ImgTools.ZipTrace

/-!
# Whether a listing covers its directory

The number of turns of the walk is the entry count of the end record, and the
extent of the directory is its central size. The records of a directory are
delimited by their own lengths, so the walk ends at the end of the directory
exactly when the directory is a sequence of as many records as are counted.
-/

namespace ImgTools.Zip

open Exec LittleEndian

/-- A directory of `count` records, and nothing else. -/
def IsDirectory (central : List UInt8) (count : Nat) : Prop :=
  ∃ records : List (List UInt8), records.length = count ∧ (∀ bytes ∈ records, IsRecord bytes) ∧
    records.flatten = central

/-- Two sequences of as many records take up the same bytes. -/
theorem flatten_append_inj {records records' : List (List UInt8)} {rest rest' : List UInt8}
    (hlength : records.length = records'.length) (h : ∀ bytes ∈ records, IsRecord bytes)
    (h' : ∀ bytes ∈ records', IsRecord bytes)
    (heq : records.flatten ++ rest = records'.flatten ++ rest') : rest = rest' := by
  induction records generalizing records' with
  | nil =>
    cases List.length_eq_zero_iff.mp hlength.symm
    exact heq
  | cons bytes records ih =>
    cases records' with
    | nil => cases hlength
    | cons bytes' records' =>
      have hbytes := h bytes List.mem_cons_self
      have hbytes' := h' bytes' List.mem_cons_self
      simp only [List.flatten_cons, List.append_assoc] at heq
      have hsame : bytes.length = bytes'.length := by
        rw [hbytes.length_eq, hbytes'.length_eq,
          ← recordLength_append (records.flatten ++ rest) hbytes.fixed_le, heq,
          recordLength_append _ hbytes'.fixed_le]
      obtain ⟨-, hrest⟩ := List.append_inj heq hsame
      exact ih (Nat.succ.inj hlength) (fun b hb => h b (List.mem_cons_of_mem _ hb))
        (fun b hb => h' b (List.mem_cons_of_mem _ hb)) hrest

/-! ### The records of a walk -/

section Walk

variable {B : Build} {central : List UInt8}

variable {S : Type} [ByteSource S]

theorem Walked.last_le {index cursor last : Nat} {s s' : S} {met : List Met}
    (h : Walked B central index cursor s met last s') (hcursor : cursor ≤ central.length) :
    last ≤ central.length := by
  induction h with
  | stop index cursor s => exact hcursor
  | turn record bytes header next ih => exact ih (centralRecord_eq_ok record).2.2.2.1

theorem Walked.single {index cursor last : Nat} {s s' : S} {met : Met}
    (h : Walked B central index cursor s [met] last s') :
    centralRecord B central index cursor = Fallible.ok met.record ∧ last = met.record.next := by
  cases h with
  | turn record bytes header next =>
    cases next
    exact ⟨record, rfl⟩

/-- The bytes of the records that a walk has met follow each other. -/
theorem Walked.drop_eq {index cursor last : Nat} {s s' : S} {met : List Met}
    (h : Walked B central index cursor s met last s') :
    central.drop cursor = (met.map Met.bytes).flatten ++ central.drop last := by
  induction h with
  | stop index cursor s => rfl
  | turn record bytes header next ih =>
    rw [bytes, ih, List.map_cons, List.flatten_cons, List.append_assoc]

/-- A walk ends at the end of the directory if it has met all that the directory is. -/
theorem Walked.last_eq_iff {index last : Nat} {s s' : S} {met : List Met}
    (h : Walked B central index 0 s met last s') :
    last = central.length ↔ IsDirectory central met.length := by
  have hsplit := h.drop_eq
  have hrecords : ∀ bytes ∈ met.map Met.bytes, IsRecord bytes := by
    intro bytes hbytes
    obtain ⟨m, -, rfl⟩ := List.mem_map.mp hbytes
    exact m.isRecord
  rw [List.drop_zero] at hsplit
  constructor
  · intro hlast
    rw [hlast, List.drop_length, List.append_nil] at hsplit
    exact ⟨met.map Met.bytes, List.length_map _, hrecords, hsplit.symm⟩
  · rintro ⟨records, hlength, hall, hflatten⟩
    have hrest : central.drop last = [] := by
      refine flatten_append_inj ((List.length_map _).trans hlength.symm) hrecords hall ?_
      rw [← hsplit, hflatten, List.append_nil]
    exact Nat.le_antisymm (h.last_le (Nat.zero_le _)) (List.drop_eq_nil_iff.mp hrest)

/-- **Exactly when a listing covers its directory.** For every source: the cursor
    behind the last entry is at the end of the directory if and only if the
    directory is a sequence of as many records as the end record counts. -/
theorem coversDirectory_iff {s s' : S} {entries : List ZipEntry}
    (hlist : (list B).run s = .done (.ok entries, s')) :
    ∃ record central s₁ met last, (readDirectory B).run s = .done (.ok (record, central), s₁) ∧
      UInt64.ofNat central.length = record.centralSize ∧
      Walked B central 0 0 s₁ met last s' ∧ entries = met.map Met.entry ∧
      (last = central.length ↔ IsDirectory central record.entryCount.toNat) := by
  obtain ⟨record, central, s₁, met, last, hdirectory, hwalked, hlength, hentries⟩ :=
    walked_of_list hlist
  obtain ⟨-, -, -, -, -, hsize⟩ := readDirectory_eq_ok.mp hdirectory
  refine ⟨record, central, s₁, met, last, hdirectory, hsize, hwalked, hentries, ?_⟩
  rw [← hlength]
  exact hwalked.last_eq_iff

end Walk

/-! ### Archives of one local header -/

/-- A local header without a name, `records` central records that refer to it and
    give `compressed` as the compressed size, and an end record that counts `count`. -/
def archive (records count compressed : Nat) : List UInt8 :=
  (encode 4 0x04034b50 ++ encode 26 0) ++
    ((List.replicate records (encode 4 0x02014b50 ++ encode 16 0 ++ encode 4 compressed ++
      encode 22 0)).flatten ++
    (encode 4 0x06054b50 ++ encode 6 0 ++ encode 2 count ++ encode 4 (46 * records) ++
      encode 4 30 ++ encode 2 0))

def counted : MemorySource (.wide .release) := ⟨archive 1 1 0, by decide +kernel⟩

def uncounted : MemorySource (.wide .release) := ⟨archive 2 1 0, by decide +kernel⟩

def two : MemorySource (.wide .release) := ⟨archive 2 2 0, by decide +kernel⟩

def uncountedCentral : List UInt8 := (uncounted.bytes.drop 30).take 92

def nameless : ZipEntry := ⟨"", 0, 0, 0, 0, 30⟩

theorem list_counted : (list (.wide .release)).run counted = .done (.ok [nameless], counted) := by
  decide +kernel

theorem readDirectory_two : (readDirectory (.wide .release)).run two =
    .done (.ok (⟨2, 92, 30⟩, uncountedCentral), two) := by
  decide +kernel

theorem list_two : (list (.wide .release)).run two = .done (.ok [nameless, nameless], two) := by
  decide +kernel

theorem coversDirectory_iff_two :
    ∃ met, Walked (.wide .release) uncountedCentral 0 0 two met 92 two ∧
      [nameless, nameless] = met.map Met.entry := by
  obtain ⟨record, central, s₁, met, last, hdirectory, -, hwalked, hentries, hcovers⟩ :=
    coversDirectory_iff list_two
  cases readDirectory_two.symm.trans hdirectory
  have hrecord : IsRecord (uncountedCentral.take 46) :=
    ⟨by decide +kernel, by decide +kernel, by decide +kernel⟩
  have hall : ∀ bytes ∈ List.replicate 2 (uncountedCentral.take 46), IsRecord bytes :=
    fun bytes hbytes => List.eq_of_mem_replicate hbytes ▸ hrecord
  obtain rfl : last = 92 :=
    (hcovers.mpr ⟨_, List.length_replicate, hall, by decide +kernel⟩).trans (by decide +kernel)
  exact ⟨met, hwalked, hentries⟩

theorem list_uncounted :
    (list (.wide .release)).run uncounted = .done (.ok [nameless], uncounted) := by
  decide +kernel

/-- The walk over a directory of 92 bytes ends at its second record. -/
theorem list_drops_record :
    (list (.wide .release)).run uncounted = .done (.ok [nameless], uncounted) ∧
      (readDirectory (.wide .release)).run uncounted =
        .done (.ok (⟨1, 92, 30⟩, uncountedCentral), uncounted) ∧
      uncountedCentral.length = 92 ∧
      hasSignature uncountedCentral 46 CENTRAL_HEADER = true ∧
      ∀ met last s', Walked (.wide .release) uncountedCentral 0 0 uncounted met last s' →
        [nameless] = met.map Met.entry → last = 46 := by
  refine ⟨list_uncounted, by decide +kernel, by decide +kernel, by decide +kernel, ?_⟩
  intro met last s' hwalked hentries
  have hrecord : centralRecord (.wide .release) uncountedCentral 0 0 =
      Fallible.ok ⟨"", 0, 0, ⟨0, 0, 0⟩, 46⟩ := by decide +kernel
  obtain ⟨only, rfl⟩ := List.length_eq_one_iff.mp
    ((List.length_map Met.entry).symm.trans (congrArg List.length hentries.symm))
  obtain ⟨honly, rfl⟩ := hwalked.single
  rw [← Fallible.ok_inj.mp (hrecord.symm.trans honly)]

end ImgTools.Zip
