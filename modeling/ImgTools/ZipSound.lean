import ImgTools.ZipAbi
import ImgTools.ZipTiles

/-!
# The walk is sound

The walk over the central directory for every source whose reads stop and return
vectors, whatever they return. The loop begins at most one turn more than the
directory has room for records, whatever count the end record gives; the cursor
never wraps; and what is listed has been decoded from consecutive records of the
directory and from local headers that the source has returned.
-/

namespace ImgTools.Zip

open Exec

/-! ### The turns of the loop -/

section Source

variable {S : Type} [ByteSource S] (B : Build)

/-- One turn of the loop: the entry of the record at `cursor`, and where the next one starts. -/
def turn (central : List UInt8) (index cursor : Nat) : Reading S ZipError (ZipEntry × Nat) := do
  let record ← centralRecord B central index cursor
  let dataOffset ← dataOffset record.name record.values.localOffset
  return (⟨record.name, record.method, record.crc32, record.values.compressed,
    record.values.uncompressed, dataOffset⟩, record.next)

/-- The runs of the loop: `turns` turns are begun, of which the last may be an error. -/
inductive Iterates (central : List UInt8) : (count index cursor : Nat) → S → (turns : Nat) →
    Except ZipError (List ZipEntry) → S → Prop where
  | stop (index cursor : Nat) (s : S) : Iterates central 0 index cursor s 0 (.ok []) s
  | fail {count index cursor : Nat} {s s' : S} {e : ZipError}
      (error : (turn B central index cursor).run s = .done (.error e, s')) :
      Iterates central (count + 1) index cursor s 1 (.error e) s'
  | next {count index cursor : Nat} {s s₁ s' : S} {entry : ZipEntry} {next turns : Nat}
      {result : Except ZipError (List ZipEntry)}
      (entry_eq : (turn B central index cursor).run s = .done (.ok (entry, next), s₁))
      (rest : Iterates central count (index + 1) next s₁ turns result s') :
      Iterates central (count + 1) index cursor s (turns + 1) (result.map (entry :: ·)) s'

end Source

/-- An entry as a central record and the local header it refers to give it. -/
structure DecodedFrom (bytes header : List UInt8) (values : Values) (entry : ZipEntry) : Prop where
  isRecord : IsRecord bytes
  values_eq : recordValues bytes = Fallible.ok values
  header_le : 30 ≤ header.length
  header_signature : hasSignature header 0 LOCAL_HEADER = true
  name_eq : entry.name = Utf8.fromUtf8Lossy (recordName bytes)
  method_eq : entry.method.toNat = field bytes 10 2
  crc32_eq : entry.crc32.toNat = field bytes 16 4
  compressed_eq : entry.compressedSize = values.compressed
  uncompressed_eq : entry.uncompressedSize = values.uncompressed
  dataOffset_eq : entry.dataOffset.toNat = values.localOffset.toNat + localLength header

/-- The entries of the records that a directory starts with, one behind the
    other, each with a local header that a read of its 30 bytes has returned. -/
inductive Decodes {S : Type} [ByteSource S] :
    (central : List UInt8) → S → (records : List (List UInt8)) → List ZipEntry → S → Prop where
  | nil (rest : List UInt8) (s : S) : Decodes rest s [] [] s
  | cons {bytes rest header : List UInt8} {values : Values} {entry : ZipEntry} {s s₁ s' : S}
      {records : List (List UInt8)} {entries : List ZipEntry}
      (decoded : DecodedFrom bytes header values entry)
      (header_read : (readSource values.localOffset 30).run s = .done (.ok header, s₁))
      (behind : Decodes rest s₁ records entries s') :
      Decodes (bytes ++ rest) s (bytes :: records) (entry :: entries) s'

section Source

variable {S : Type} [ByteSource S] {B : Build} {central : List UInt8} {P : S → Prop}

/-- What a turn that yields an entry has decoded it from. -/
theorem decodedFrom_of_turn {index cursor next : Nat} {entry : ZipEntry} {s s' : S}
    (h : (turn B central index cursor).run s = .done (.ok (entry, next), s')) :
    ∃ bytes header values, DecodedFrom bytes header values entry ∧
      (readSource values.localOffset 30).run s = .done (.ok header, s') ∧
      central.drop cursor = bytes ++ central.drop next := by
  unfold turn at h
  obtain ⟨record, s₁, hlift, hbehind⟩ := Reading.bind_eq_ok.mp h
  obtain ⟨hrecord, rfl⟩ := Reading.lift_eq_ok.mp hlift
  obtain ⟨offset, s₂, hoffset, hlast⟩ := Reading.bind_eq_ok.mp hbehind
  cases hlast
  obtain ⟨header, hheader, hlength, hsignature, hsum⟩ := dataOffset_eq_ok hoffset
  obtain ⟨bytes, hbytes, hgives, hsplit⟩ := isRecord_of_centralRecord hrecord
  exact ⟨bytes, header, record.values, ⟨hbytes, hgives.values_eq, hlength, hsignature,
    hgives.name_eq, hgives.method_eq, hgives.crc32_eq, rfl, rfl, hsum⟩, hheader, hsplit⟩

/-- A turn stops normally and moves the cursor by a record at least. -/
theorem turn_stops (hresponds : Responds P) (central : List UInt8) (index cursor : Nat) :
    Reading.Stops P (turn (S := S) B central index cursor) fun (_, next) =>
      cursor + 46 ≤ next ∧ next ≤ central.length := by
  unfold turn
  refine .bind (.lift (centralRecord_stops central index cursor)) fun record hrecord => ?_
  refine .bind (dataOffset_stops hresponds _ _) fun dataOffset _ => ?_
  exact .pure hrecord

theorem walk_succ (count index cursor : Nat) :
    walk (S := S) B central (count + 1) index cursor =
      turn B central index cursor >>= fun (entry, next) => do
        let entries ← walk B central count (index + 1) next
        return entry :: entries := by
  rw [turn, Reading.bind_assoc, walk]
  simp only [Reading.bind_assoc, Reading.pure_bind]

/-- The runs of the loop are those of the walk. -/
theorem Iterates.walk_run {count index cursor turns : Nat} {s s' : S}
    {result : Except ZipError (List ZipEntry)}
    (h : Iterates B central count index cursor s turns result s') :
    (walk B central count index cursor).run s = .done (result, s') := by
  induction h with
  | stop index cursor s => rfl
  | fail error => rw [walk_succ, Reading.bind_of_error error]
  | @next _ _ _ _ _ _ _ _ _ result entry_eq rest ih =>
    rw [walk_succ, Reading.bind_of_ok entry_eq]
    cases result with
    | ok entries => exact Reading.bind_of_ok ih _
    | error e => exact Reading.bind_of_error ih _

/-- **The loop ends.** Every turn but the last has passed the fixed part of a record. -/
theorem exists_iterates (hresponds : Responds P) (central : List UInt8) (count index cursor : Nat)
    (hcursor : cursor ≤ central.length) {s : S} (hs : P s) :
    ∃ turns result s', Iterates B central count index cursor s turns result s' ∧
      46 * turns ≤ central.length - cursor + 46 := by
  induction count generalizing index cursor s with
  | zero => exact ⟨0, .ok [], s, .stop index cursor s, by omega⟩
  | succ count ih =>
    obtain ⟨result, s₁, hturn, hs₁, hnext⟩ :=
      turn_stops (B := B) hresponds central index cursor s hs
    match result, hturn, hnext with
    | .error e, hturn, _ => exact ⟨1, .error e, s₁, .fail hturn, by omega⟩
    | .ok (entry, next), hturn, hnext =>
      obtain ⟨hmoved, hinside⟩ := hnext _ rfl
      obtain ⟨turns, result, s', hrest, hturns⟩ := ih (index + 1) next hinside hs₁
      exact ⟨turns + 1, _, s', .next hturn hrest, by omega⟩

/-- **What is listed has been decoded.** -/
theorem Iterates.decodes {count index cursor turns : Nat} {s s' : S}
    {result : Except ZipError (List ZipEntry)}
    (h : Iterates B central count index cursor s turns result s') :
    ∀ entries, result = .ok entries → entries.length = count ∧
      ∃ records, Decodes (central.drop cursor) s records entries s' := by
  induction h with
  | stop index cursor s =>
    rintro _ ⟨⟩
    exact ⟨rfl, [], .nil _ s⟩
  | fail error =>
    rintro _ ⟨⟩
  | @next _ _ _ _ _ _ _ _ _ result entry_eq rest ih =>
    intro entries hentries
    match result, hentries with
    | .ok entries', hentries =>
      cases hentries
      obtain ⟨hlength, records, hrecords⟩ := ih entries' rfl
      obtain ⟨bytes, header, values, hdecoded, hheader, hsplit⟩ := decodedFrom_of_turn entry_eq
      rw [hsplit]
      exact ⟨by rw [List.length_cons, hlength], bytes :: records, .cons hdecoded hheader hrecords⟩

/-! ### What has been decoded -/

/-- The records stand behind each other from the first byte on. -/
theorem Decodes.flatten_isPrefix {s s' : S} {records : List (List UInt8)} {entries : List ZipEntry}
    (h : Decodes central s records entries s') :
    records.flatten <+: central := by
  induction h with
  | nil rest s => exact List.nil_prefix
  | cons decoded header_read behind ih =>
    rw [List.flatten_cons]
    exact (List.prefix_append_right_inj _).mpr ih

/-- Every entry has a record of 46 bytes at least. -/
theorem Decodes.length_le {s s' : S} {records : List (List UInt8)} {entries : List ZipEntry}
    (h : Decodes central s records entries s') : 46 * entries.length ≤ central.length := by
  induction h with
  | nil rest s => exact Nat.zero_le _
  | cons decoded header_read behind ih =>
    have hfixed := decoded.isRecord.fixed_le
    rw [List.length_cons, List.length_append]
    omega

/-! ### The arithmetic of the cursor -/

/-- No addition to the cursor overflows: a build that panics on overflow reads the
    same record as one that wraps. -/
theorem centralRecord_profile (target : Target) (profile profile' : Profile)
    (central : List UInt8) (index cursor : Nat) :
    centralRecord ⟨target, profile⟩ central index cursor =
      centralRecord ⟨target, profile'⟩ central index cursor := by
  refine centralRecord_eq_of index rfl fun hfits => ⟨hfits, fun fields => ?_⟩
  have hadd : ∀ p, ((⟨target, p⟩ : Build).arith (Build.usizeBits ⟨target, p⟩)).add cursor 46 =
      .done (cursor + 46) := fun p => cursor_add (B := ⟨target, p⟩) hfits (Nat.le_refl 46)
  rw [spans, spans, hadd, hadd]
  rfl

theorem walk_profile (target : Target) (profile profile' : Profile) (central : List UInt8)
    (count index cursor : Nat) :
    walk (S := S) ⟨target, profile⟩ central count index cursor =
      walk ⟨target, profile'⟩ central count index cursor := by
  induction count generalizing index cursor with
  | zero => rfl
  | succ count ih => simp only [walk, centralRecord_profile target profile profile', ih]

theorem list_profile (target : Target) (profile profile' : Profile) :
    list (S := S) ⟨target, profile⟩ = list ⟨target, profile'⟩ := by
  unfold list
  simp only [walk_profile target profile profile']
  rfl

/-! ### The listing -/

/-- What is asked of a listing from `s` whose directory was read and whose vector
    was allocated: the loop over the directory runs, on builds that panic on
    overflow as on those that wrap, and begins at most one turn more than the
    directory has room for records; and what it lists are as many entries as the
    end record counts, decoded from consecutive records and from local headers. -/
structure SoundListing (B : Build) (s : S) (record : EndRecord) (central : List UInt8) (s₁ : S)
    (turns : Nat) (result : Except ZipError (List ZipEntry)) (s' : S) : Prop where
  iterates : Iterates B central record.entryCount.toNat 0 0 s₁ turns result s'
  runs : ∀ profile, (list ⟨B.target, profile⟩).run s = .done (result, s')
  turns_le : turns ≤ record.centralSize.toNat / 46 + 1
  length_eq : ∀ entries, result = .ok entries → entries.length = record.entryCount.toNat
  length_le : ∀ entries, result = .ok entries → entries.length * 46 ≤ record.centralSize.toNat
  decodes : ∀ entries, result = .ok entries →
    ∃ records, records.flatten <+: central ∧ Decodes central s₁ records entries s'

/-- **The walk is sound.** For every source whose reads stop and return vectors,
    whatever they return, the directory is an error or every listing of it whose
    vector is allocated is sound. -/
theorem list_sound (hresponds : Responds P) {s : S} (hs : P s) :
    (∃ e s', (readDirectory B).run s = .done (.error e, s') ∧
      (list B).run s = .done (.error e, s')) ∨
    ∃ record central s₁, (readDirectory B).run s = .done (.ok (record, central), s₁) ∧
      central.length = record.centralSize.toNat ∧
      (withCapacity B (requestedCapacity B record) = .done () →
        ∃ turns result s', SoundListing B s record central s₁ turns result s') := by
  obtain ⟨directory, s₁, hread, hs₁, hdirectory⟩ := readDirectory_stops (B := B) hresponds s hs
  match directory, hread, hdirectory with
  | .error e, hread, _ => exact .inl ⟨e, s₁, hread, Reading.bind_of_error hread _⟩
  | .ok (record, central), hread, hdirectory =>
    obtain ⟨hsize, -⟩ := hdirectory _ rfl
    refine .inr ⟨record, central, s₁, hread, hsize, fun hcapacity => ?_⟩
    obtain ⟨turns, result, s', hiterates, hturns⟩ := exists_iterates (B := B) hresponds central
      record.entryCount.toNat 0 0 (Nat.zero_le _) hs₁
    have hdecodes : ∀ entries, result = .ok entries →
        entries.length = record.entryCount.toNat ∧
          ∃ records, Decodes central s₁ records entries s' := hiterates.decodes
    refine ⟨turns, result, s', hiterates, ?_, by omega, ?_, ?_, ?_⟩
    · intro profile
      rw [list_profile B.target profile B.profile, list_run hread hcapacity]
      exact hiterates.walk_run
    · intro entries hentries
      exact (hdecodes entries hentries).1
    · intro entries hentries
      obtain ⟨-, records, hrecords⟩ := hdecodes entries hentries
      have hle := hrecords.length_le
      omega
    · intro entries hentries
      obtain ⟨-, records, hrecords⟩ := hdecodes entries hentries
      exact ⟨records, hrecords.flatten_isPrefix, hrecords⟩

theorem list_sound_two : ∃ turns, SoundListing (.wide .release) two ⟨2, 92, 30⟩ uncountedCentral two
    turns (.ok [nameless, nameless]) two := by
  have hresponds := (MemorySource.holds two).serves.responds
  rcases list_sound (B := .wide .release) hresponds rfl with
    ⟨e, s', herror, -⟩ | ⟨record, central, s₁, hread, -, hsound⟩
  · cases readDirectory_two.symm.trans herror
  · cases readDirectory_two.symm.trans hread
    obtain ⟨turns, result, s', h⟩ := hsound (by decide)
    cases list_two.symm.trans (h.runs .release)
    exact ⟨turns, h⟩

end Source

end ImgTools.Zip
