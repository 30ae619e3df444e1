import ImgTools.ZipAccess
import ImgTools.ZipRoundTrip

/-!
# What a listing of an archive reads

The listing of an archive asks for the tail, for the ZIP64 record if there is one, for the
central directory, and for the fixed part of each local header: exactly these ranges, in
this order, over any source. And nothing outside of the ranges that a listing has read
matters to it.
-/

namespace ImgTools.Zip

open Exec Format

/-! ### Code and what it asks for -/

section Asks

variable {S : Type} {α β : Type} {P : S → Prop} {requests requests' : List Request}

/-- Code that yields `a`, and asks a source of `P` for exactly these ranges. -/
def Asks (P : S → Prop) (requests : List Request) (x : Reading (Logged S) ZipError α) (a : α) :
    Prop :=
  ∀ s log, P s → ∃ s', x.run ⟨s, log⟩ = .done (.ok a, ⟨s', log ++ requests⟩) ∧ P s'

namespace Asks

variable {x : Reading (Logged S) ZipError α} {f : α → Reading (Logged S) ZipError β} {a : α} {b : β}

theorem pure (a : α) : Asks P [] (pure a : Reading (Logged S) ZipError α) a :=
  fun s log hs => ⟨s, by rw [List.append_nil]; rfl, hs⟩

theorem lift {x : Fallible ZipError α} (h : x = Fallible.ok a) :
    Asks P [] (liftM x : Reading (Logged S) ZipError α) a := by
  subst h
  exact pure a

theorem except {result : Except ZipError α} (h : result = .ok a) :
    Asks P [] (liftM result : Reading (Logged S) ZipError α) a := by
  subst h
  exact pure a

theorem bind (hx : Asks P requests x a) (hf : Asks P requests' (f a) b) :
    Asks P (requests ++ requests') (x >>= f) b := by
  intro s log hs
  obtain ⟨s₁, hrun, hs₁⟩ := hx s log hs
  obtain ⟨s₂, hrun', hs₂⟩ := hf s₁ (log ++ requests) hs₁
  refine ⟨s₂, ?_, hs₂⟩
  rw [Reading.bind_of_ok hrun, hrun', List.append_assoc]

section Source

variable [ByteSource S] {content : List UInt8} (hholds : Holds content P)

include hholds

theorem size : Asks P [] (.ask ByteSource.size) (UInt64.ofNat content.length) := by
  intro s log hs
  have hsize : ByteSource.size s = UInt64.ofNat content.length := by
    rw [← hholds.size_eq s hs, UInt64.ofNat_toNat]
  refine ⟨s, ?_, hs⟩
  rw [Reading.ask_run, List.append_nil, ← hsize]
  rfl

theorem read {offset : UInt64} (length : Nat) (hle : offset.toNat ≤ content.length) :
    Asks P [(offset, length)] (readSource offset length)
      ((content.drop offset.toNat).take length) := by
  intro s log hs
  obtain ⟨result, s', hrun, hs', rfl⟩ := hholds.read_eq offset length hle s hs
  refine ⟨s', ?_, hs'⟩
  have hlogged : (ByteSource.read (S := Logged S) offset length).run ⟨s, log⟩ =
      .done (.ok ((content.drop offset.toNat).take length), ⟨s', log ++ [(offset, length)]⟩) := by
    show (ByteSource.read offset length).run s >>= _ = _
    rw [hrun]
    rfl
  rw [readSource, Reading.convert_run, hlogged]
  rfl

end Source

end Asks

end Asks

/-! ### The ranges -/

def tailRequest (size : Nat) : Request :=
  (UInt64.ofNat (size - min END_RECORD_WINDOW size), min END_RECORD_WINDOW size)

namespace Format

def EndedFile.recordRequests (file : EndedFile) : List Request :=
  if file.ending.zip64.isSome then [(UInt64.ofNat file.front.length, 56)] else []

def Archive.headerRequests (archive : Archive) : List Request :=
  (placed 0 archive.entries).map fun (offset, _) => (UInt64.ofNat offset, 30)

def Archive.requests (archive : Archive) : List Request :=
  tailRequest archive.bytes.length :: (archive.file.recordRequests ++
    ((archive.ending.record.centralOffset, archive.ending.record.centralSize.toNat) ::
      archive.headerRequests))

end Format

/-! ### Reading an archive -/

section Source

variable {S : Type} [ByteSource S] {P : S → Prop}

section Ending

variable {file : EndedFile} (hholds : Holds file.bytes P) (hlen : file.bytes.length < 2 ^ 64)
  (hlocator : HasLocator file.bytes file.eocdAt → file.ending.zip64.isSome)

include hholds hlen hlocator

theorem endAt_asks {base i : Nat} (heocd : base + i = file.eocdAt) (hfar : 20 ≤ i ∨ base = 0) :
    Asks P file.recordRequests (endAt (file.bytes.drop base) i) file.ending.record := by
  have hbase : base ≤ file.bytes.length := by
    have := file.eocdAt_le
    omega
  have hplain : plainEnd (file.bytes.drop base) i = plainEnd file.ending.eocdPart 0 := by
    rw [plainEnd_drop hbase, heocd, file.plainEnd_eocdAt]
  unfold endAt
  cases hzip64 : file.ending.zip64 with
  | none =>
    have hclear : ¬ HasLocator file.bytes file.eocdAt := by
      intro h
      simpa [hzip64] using hlocator h
    have hrecord := hplain.trans (Ending.plainEnd_eocdPart hzip64)
    have hrequests : file.recordRequests = [] ++ [] := by
      rw [EndedFile.recordRequests, hzip64]
      rfl
    rw [hrequests]
    refine .bind (.except hrecord) ?_
    by_cases hi : 20 ≤ i
    · have hsignature : hasSignature (file.bytes.drop base) (i - 20) ZIP64_LOCATOR = false := by
        rw [hasSignature_drop hbase, Bool.eq_false_iff]
        intro h
        refine hclear ⟨by omega, ?_⟩
        rwa [← heocd, Nat.add_sub_assoc hi]
      rw [checkedSub, if_pos hi]
      dsimp only
      rw [hsignature, Ending.isSentinel_record hzip64]
      exact .pure _
    · rw [checkedSub, if_neg hi]
      exact .pure _
  | some form =>
    obtain ⟨hroom, hsignature⟩ := file.hasLocator_zip64 hzip64
    obtain ⟨record, hrecord⟩ := file.ending.plainEnd_isOk
    have hi : 20 ≤ i := by omega
    have hlocatorAt : base + (i - 20) = file.eocdAt - 20 := by omega
    have hfront : file.front.length ≤ file.bytes.length := by
      rw [EndedFile.bytes, List.length_append]
      omega
    have hrecordAt := file.toNat_length_front hlen
    have hread := Asks.read hholds 56 (hrecordAt.trans_le hfront)
    rw [hrecordAt, file.take_record64 hzip64] at hread
    have hoffset : u64le (file.bytes.drop base) (i - 20 + 8) =
        .ok (UInt64.ofNat file.front.length) := by
      rw [u64le_drop hbase, ← Nat.add_assoc, hlocatorAt, file.recordOffset_zip64 hzip64]
    have hrequests : file.recordRequests =
        [] ++ ([] ++ ([(UInt64.ofNat file.front.length, 56)] ++ [])) := by
      rw [EndedFile.recordRequests, hzip64]
      rfl
    rw [hrequests]
    refine .bind (.except (hplain.trans hrecord)) ?_
    rw [checkedSub, if_pos hi]
    dsimp only
    rw [if_pos (by rw [hasSignature_drop hbase, hlocatorAt]; exact hsignature)]
    refine .bind (.except hoffset) (.bind hread (.except ?_))
    exact zip64Fields_zip64Eocd _ _ _

theorem readEnd_asks (hlater : ¬ file.LaterEocd) :
    Asks P (tailRequest file.bytes.length :: file.recordRequests) readEnd file.ending.record := by
  have hlast : IsLastEocd file.bytes file.eocdAt := by
    refine ⟨by rw [file.length_bytes]; omega, file.hasSignature_eocdAt, fun k hk hle => ?_⟩
    exact Bool.eq_false_iff.mpr fun h => hlater ⟨k, hk, hle, h⟩
  have hroom := hlast.room
  have hconst : END_RECORD_WINDOW = 0xffff + 22 + 76 + 0xffff := rfl
  have hsize : (UInt64.ofNat file.bytes.length).toNat = file.bytes.length :=
    UInt64.toNat_ofNat_of_lt' hlen
  obtain ⟨window, hmin⟩ : ∃ window, window = min END_RECORD_WINDOW file.bytes.length := ⟨_, rfl⟩
  obtain ⟨i, hi, hfar, htail, hfound⟩ :=
    hlast.in_tail (file.eocdAt_window (Nat.le_refl _)) hmin
  have hle : file.bytes.length - window ≤ file.bytes.length := Nat.sub_le _ _
  have hoffset : (UInt64.ofNat (file.bytes.length - window)).toNat = file.bytes.length - window :=
    UInt64.toNat_ofNat_of_lt' (Nat.lt_of_le_of_lt hle hlen)
  have hread : Asks P _ (readSource (UInt64.ofNat (file.bytes.length - window)) window) _ :=
    Asks.read hholds window (hoffset.trans_le hle)
  rw [hoffset, htail] at hread
  show Asks P ([] ++ ([_] ++ file.recordRequests)) _ _
  refine .bind (.size hholds) ?_
  rw [tailRequest, hsize, ← hmin, if_neg (by omega)]
  refine .bind hread ?_
  rw [hfound]
  exact endAt_asks hholds hlen hlocator hi.symm hfar

end Ending

section Archive

variable {B : Build} (archive : Archive) (hholds : Holds archive.bytes P)

include hholds

theorem dataOffset_asks (hlen : archive.bytes.length < 2 ^ 64) {offset : Nat} {entry : Entry}
    (hp : (offset, entry) ∈ placed 0 archive.entries) (name : String) :
    Asks P [(UInt64.ofNat offset, 30)] (dataOffset name (UInt64.ofNat offset))
      (UInt64.ofNat (entry.dataAt offset)) := by
  have hlocal := archive.localPart_isPrefix hp
  obtain ⟨hoffset, hle, htake⟩ := take_localHead hlen hlocal
  have hread := Asks.read hholds 30 (hoffset.trans_le hle)
  rw [hoffset, htake] at hread
  rw [dataOffset_eq]
  exact .bind hread (.except (localStart_localHead hlen hlocal (archive.fits _ hp) name))

/-- The walk asks for one local header for each record. -/
theorem walk_asks (hlen : archive.bytes.length < 2 ^ 64) (entries : List (Nat × Entry))
    (hentries : ∀ p ∈ entries, p ∈ placed 0 archive.entries) (central front back : List UInt8)
    (hcentral : central = front ++ (directory entries ++ back))
    (hfits : central.length < 2 ^ B.usizeBits) (index : Nat) :
    Asks P (entries.map fun (offset, _) => (UInt64.ofNat offset, 30))
      (walk B central entries.length index front.length)
      (entries.map fun (offset, entry) => entry.listed offset) := by
  induction entries generalizing front index with
  | nil => exact .pure _
  | cons first entries ih =>
    obtain ⟨offset, entry⟩ := first
    have hp := hentries (offset, entry) List.mem_cons_self
    have hsplit : central = front ++ (entry.central offset ++ (directory entries ++ back)) := by
      rw [hcentral]
      simp only [directory, List.flatMap_cons, List.append_assoc]
    have hrest := ih (fun p hp => hentries p (List.mem_cons_of_mem _ hp))
      (front ++ entry.central offset) (by rw [hsplit, List.append_assoc]) (index + 1)
    have hrequests : ((offset, entry) :: entries).map
          (fun (offset, _) => ((UInt64.ofNat offset, 30) : Request)) =
        [] ++ ([(UInt64.ofNat offset, 30)] ++
          (entries.map (fun (offset, _) => (UInt64.ofNat offset, 30)) ++ [])) := by
      rw [List.append_nil]
      rfl
    rw [hrequests, List.length_cons, walk]
    refine .bind (.lift (centralRecord_central hsplit hfits (archive.fits _ hp) index)) ?_
    refine .bind (dataOffset_asks archive hholds hlen hp entry.name) ?_
    exact .bind hrest (.pure _)

variable (hlen : archive.bytes.length < 2 ^ 64) (hlater : ¬ archive.file.LaterEocd)
  (hlocator : HasLocator archive.bytes archive.file.eocdAt → archive.ending.zip64.isSome)
  (hmemory : archive.FitsMemory B)

include hlen hlater hlocator hmemory

theorem readDirectory_asks :
    Asks P (tailRequest archive.bytes.length :: (archive.file.recordRequests ++
        [(archive.ending.record.centralOffset, archive.ending.record.centralSize.toNat)]))
      (readDirectory B) (archive.ending.record, directory (placed 0 archive.entries)) := by
  have hbytes := congrArg List.length archive.bytes_eq
  simp only [List.length_append] at hbytes
  have hoffset := archive.offset_eq
  rw [List.length_append] at hoffset
  have hread : Asks P _ (readSource archive.ending.record.centralOffset _) _ :=
    Asks.read hholds archive.ending.record.centralSize.toNat (by omega)
  rw [archive.directory_at] at hread
  have hrecord : archive.file.ending.record = archive.ending.record := rfl
  have hend : Asks P _ readEnd archive.file.ending.record :=
    readEnd_asks hholds hlen hlocator hlater
  unfold readDirectory
  rw [← List.cons_append, ← List.append_nil [(archive.ending.record.centralOffset, _)]]
  refine .bind hend ?_
  simp only [hrecord, usizeFrom_centralSize archive hmemory]
  refine .bind hread ?_
  rw [if_neg (not_not_intro (ofNat_length_directory archive))]
  exact .pure _

/-- **A listing of an archive reads exactly these ranges**, in this order: the tail, the
    ZIP64 record if there is one, the directory, and the local headers. -/
theorem list_asks : Asks P archive.requests (list B) archive.listing := by
  have hwalk := walk_asks (B := B) archive hholds hlen (placed 0 archive.entries) (fun _ hp => hp)
    (directory (placed 0 archive.entries)) [] [] (List.append_nil _).symm hmemory.directory_lt 0
  rw [length_placed, ← archive.count_eq] at hwalk
  have hcapacity : Asks P []
      (liftM (withCapacity B (requestedCapacity B archive.ending.record))) () := by
    rw [withCapacity_archive archive hmemory]
    exact .pure ()
  have hrequests : archive.requests = tailRequest archive.bytes.length ::
      (archive.file.recordRequests ++
        [(archive.ending.record.centralOffset, archive.ending.record.centralSize.toNat)]) ++
      ([] ++ archive.headerRequests) := by
    rw [Archive.requests, List.nil_append, List.cons_append, List.append_assoc]
    rfl
  rw [hrequests]
  exact .bind (readDirectory_asks archive hholds hlen hlater hlocator hmemory)
    (.bind hcapacity hwalk)

end Archive

end Source

/-! ### A listing depends on what it reads -/

def recorded : Question → List Request
  | .size => []
  | .read offset length => [(offset, length)]

theorem logs_reply (S : Type) [ByteSource S] :
    Dialogue.Logs (reply (S := Logged S)) Logged.log recorded where
  grows := by
    intro q s result s' hrun
    cases q with
    | size =>
      cases hrun
      exact (List.append_nil _).symm
    | read offset length =>
      obtain ⟨⟨read, s₁⟩, hread, hrest⟩ := Outcome.bind_eq_done.mp hrun
      obtain ⟨⟨bytes, source⟩, -, hlogged⟩ := Outcome.bind_eq_done.mp hread
      cases hlogged
      cases hrest
      rfl

variable {B : Build} {memory changed : MemorySource B}

/-- The sources of two runs, over one archive and over a changed one. -/
def Beside (memory changed : MemorySource B) (logged : Logged (MemorySource B))
    (plain : MemorySource B) : Prop :=
  logged.source = memory ∧ plain = changed

theorem reply_alike (hlength : changed.bytes.length = memory.bytes.length) {q : Question}
    (hsame : ∀ r ∈ recorded q, (changed.bytes.drop r.1.toNat).take r.2 =
      (memory.bytes.drop r.1.toNat).take r.2) :
    Reading.Alike (Beside memory changed) (reply (S := Logged (MemorySource B)) q)
      (reply (S := MemorySource B) q) := by
  rintro ⟨source, log⟩ plain ⟨hsource, hplain⟩
  obtain rfl : source = memory := hsource
  obtain rfl := hplain
  cases q with
  | size =>
    refine .done ⟨congrArg Except.ok ?_, rfl, rfl⟩
    show UInt64.ofNat source.bytes.length = UInt64.ofNat plain.bytes.length
    rw [hlength]
  | read offset length =>
    obtain ⟨answer, hread, hread'⟩ := MemorySource.read_congr offset length hlength
      (hsame (offset, length) (List.mem_singleton_self _))
    have hlogged : (ByteSource.read (S := Logged (MemorySource B)) offset length).run
        ⟨source, log⟩ = .done (answer, ⟨source, log ++ [(offset, length)]⟩) := by
      show (MemorySource.read offset length).run source >>= _ = _
      rw [hread]
      rfl
    have hplain : (ByteSource.read (S := MemorySource B) offset length).run plain =
        .done (answer, plain) := hread'
    show Outcome.Related _ ((readSource offset length).run _) ((readSource offset length).run plain)
    rw [readSource, readSource, Reading.convert_run, Reading.convert_run, hlogged, hplain]
    exact .done ⟨rfl, rfl, rfl⟩

/-- **What a listing does not read does not matter.** Change any bytes of an archive
    outside the ranges that its listing reads: the listing stays the same. -/
theorem list_local (hlength : changed.bytes.length = memory.bytes.length)
    {result : Except ZipError (List ZipEntry)} {source : MemorySource B} {log : List Request}
    (hrun : (list B).run (⟨memory, []⟩ : Logged (MemorySource B)) = .done (result, ⟨source, log⟩))
    (hsame : ∀ r ∈ log, (changed.bytes.drop r.1.toNat).take r.2 =
      (memory.bytes.drop r.1.toNat).take r.2) :
    (list B).run changed = .done (result, changed) := by
  obtain ⟨d, hd⟩ := list_converses B
  have hlogged : list B = d.run (reply (S := Logged (MemorySource B))) :=
    hd ⟨Logged (MemorySource B), inferInstance⟩
  have hplain : list B = d.run (reply (S := MemorySource B)) :=
    hd ⟨MemorySource B, inferInstance⟩
  rw [hlogged] at hrun
  have hrelated := Dialogue.related_of_asked (R := Beside memory changed) d ⟨memory, []⟩ changed
    ⟨rfl, rfl⟩ fun q hasked => reply_alike hlength fun r hr =>
      hsame r ((logs_reply (MemorySource B)).mem_of_asked hrun hasked r hr)
  rw [hplain]
  rw [hrun] at hrelated
  generalize (d.run (reply (S := MemorySource B))).run changed = p at hrelated ⊢
  cases hrelated with
  | @done _ q hq =>
    obtain ⟨result', changed'⟩ := q
    obtain ⟨rfl, -, rfl⟩ := hq
    rfl

def roomyEnding : Ending :=
  { sampleArchive.ending with record := ⟨1, 65, 131206⟩, narrow := by decide }

/-- The archive with padding behind its entry, longer than the window of the end record. -/
def roomyArchive : Archive :=
  { sampleArchive with
    gap := List.replicate 131168 0
    ending := roomyEnding
    count_eq := sampleArchive.count_eq
    size_eq := sampleArchive.size_eq
    offset_eq := by
      have hlocals := sampleArchive.offset_eq
      rw [List.length_append] at hlocals ⊢
      rw [List.length_replicate, ← Nat.add_right_cancel (m := 0) hlocals]
      rfl }

theorem drop_roomyArchive : roomyArchive.bytes.drop 131206 =
    directory (placed 0 [sampleEntry]) ++ roomyArchive.ending.eocdPart := by
  have hlength : (locals roomyArchive.entries ++ roomyArchive.gap).length = 131206 :=
    roomyArchive.offset_eq.symm
  rw [roomyArchive.bytes_eq, ← hlength, List.drop_left]
  rfl

theorem length_roomyArchive : roomyArchive.bytes.length = 131295 := by
  have hback := congrArg List.length drop_roomyArchive
  have hlength : (directory (placed 0 [sampleEntry]) ++ roomyArchive.ending.eocdPart).length = 89 :=
    by decide +kernel
  rw [hlength, List.length_drop] at hback
  omega

theorem eocdAt_roomyArchive : roomyArchive.file.eocdAt = 131271 := by
  have hbytes := roomyArchive.file.length_bytes
  have hcomment : roomyArchive.file.ending.comment.length = 2 := rfl
  have hlength : roomyArchive.file.bytes.length = 131295 := length_roomyArchive
  omega

theorem hasSignature_roomyArchive (o : Nat) (signature : UInt32) :
    hasSignature roomyArchive.bytes (131206 + o) signature =
      hasSignature (directory (placed 0 [sampleEntry]) ++ roomyArchive.ending.eocdPart) o
        signature := by
  rw [← drop_roomyArchive, hasSignature_drop]
  rw [length_roomyArchive]
  decide

def roomy : MemorySource (.wide .release) := ⟨roomyArchive.bytes, by
  rw [length_roomyArchive]
  decide⟩

def roomyChanged : MemorySource (.wide .release) := ⟨roomyArchive.bytes.set 33 0, by
  rw [List.length_set, length_roomyArchive]
  decide⟩

theorem roomy_asks : ∃ source, (list (.wide .release)).run (⟨roomy, []⟩ : Logged _) =
    .done (.ok roomyArchive.listing, ⟨source, [] ++ roomyArchive.requests⟩) ∧ source = roomy := by
  have hlen : roomyArchive.bytes.length < 2 ^ 64 := by
    rw [length_roomyArchive]
    decide
  refine list_asks roomyArchive (MemorySource.holds roomy) hlen ?_ ?_
    (roomyArchive.fitsMemory_of_length_le roomy.fits) roomy [] rfl
  · rintro ⟨k, hk, hroom, hsignature⟩
    have hlength : roomyArchive.file.bytes.length = 131295 := length_roomyArchive
    rw [eocdAt_roomyArchive] at hk
    obtain rfl | rfl : k = 131206 + 66 ∨ k = 131206 + 67 := by omega
    · exact absurd ((hasSignature_roomyArchive 66 EOCD).symm.trans hsignature) (by decide +kernel)
    · exact absurd ((hasSignature_roomyArchive 67 EOCD).symm.trans hsignature) (by decide +kernel)
  · rintro ⟨-, hsignature⟩
    rw [eocdAt_roomyArchive] at hsignature
    exact absurd ((hasSignature_roomyArchive 45 ZIP64_LOCATOR).symm.trans hsignature)
      (by decide +kernel)

/-- The data of the entry is outside the ranges that are read. -/
theorem list_local_roomy : (list (.wide .release)).run roomyChanged =
    .done (.ok roomyArchive.listing, roomyChanged) := by
  obtain ⟨source, hrun, -⟩ := roomy_asks
  have hlength : roomyChanged.bytes.length = roomy.bytes.length := List.length_set
  refine list_local hlength hrun fun r hr => ?_
  have hrequests : [] ++ roomyArchive.requests = [(127, 131168), (131206, 65), (0, 30)] := by
    rw [List.nil_append, Archive.requests, length_roomyArchive]
    rfl
  rw [hrequests] at hr
  show ((roomyArchive.bytes.set 33 0).drop r.1.toNat).take r.2 =
    (roomyArchive.bytes.drop r.1.toNat).take r.2
  simp only [List.mem_cons, List.not_mem_nil, or_false] at hr
  rcases hr with rfl | rfl | rfl
  · rw [List.drop_set_of_lt (by decide)]
  · rw [List.drop_set_of_lt (by decide)]
  · show (roomyArchive.bytes.set 33 0).take 30 = roomyArchive.bytes.take 30
    rw [List.take_set_of_le (by decide)]

end ImgTools.Zip
