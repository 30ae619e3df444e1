import ImgTools.FdSource
import ImgTools.ZipAllocation
import ImgTools.ZipRoundTrip
import ImgTools.ZipSimilar
import ImgTools.ZipTrace

/-!
# Listings on 32-bit and on 64-bit targets

The listing of a file through a descriptor meets the width of the target in the
`off_t` of every call, in the conversions to `usize` and in the vector of the
entries. On a 64-bit target no file is too large. On a 32-bit target a read whose
position is `2 ^ 31` or more is out of range, so that a file with a byte there
has a schedule of partial transfers on which its end cannot be read.
-/

namespace ImgTools.Zip

open Exec

/-! ### Records that both widths read alike -/

section Records

variable {B : Build} {central : List UInt8} {cursor : Nat}

theorem isDamaged_of_lt (h : cursor + 46 < 2 ^ B.usizeBits) :
    isDamaged B central cursor =
      (decide (central.length < cursor + 46) || !hasSignature central cursor CENTRAL_HEADER) := by
  simp only [isDamaged, checkedAdd, if_pos h]

theorem advance_of_lt {a b : Nat} (h : a + b < 2 ^ B.usizeBits) (message : String) :
    advance B a b message = .ok (a + b) := advance_eq_ok.mpr ⟨h, rfl⟩

def spansAt (fields : CentralFields) (cursor : Nat) : Spans where
  nameStart := cursor + 46
  nameEnd := cursor + 46 + fields.nameLen.toNat
  extraEnd := cursor + 46 + fields.nameLen.toNat + fields.extraLen.toNat
  next := cursor + 46 + fields.nameLen.toNat + fields.extraLen.toNat + fields.commentLen.toNat

theorem spans_of_lt (fields : CentralFields) (h : cursor + 46 + 3 * 65535 < 2 ^ B.usizeBits) :
    spans B fields cursor = Fallible.ok (spansAt fields cursor) := by
  have hname := fields.nameLen.toNat_lt
  have hextra := fields.extraLen.toNat_lt
  have hcomment := fields.commentLen.toNat_lt
  have hadd : (B.arith B.usizeBits).add cursor 46 = .done (cursor + 46) :=
    Arith.add_of_fits (Build.arith_fits.mpr (by omega))
  rw [spans, hadd, Fallible.lift_done, Fallible.ok_bind, advance_of_lt (by omega)]
  show (do
    let extraEnd ← liftM (advance B (cursor + 46 + fields.nameLen.toNat) _ _)
    _ : Fallible ZipError Spans) = _
  rw [advance_of_lt (by omega)]
  show (do
    let next ← liftM (advance B (cursor + 46 + fields.nameLen.toNat + fields.extraLen.toNat) _ _)
    _ : Fallible ZipError Spans) = _
  rw [advance_of_lt (by omega)]
  rfl

end Records

/-- Two builds read the same record where they find the same end of it. -/
theorem centralRecord_eq_of {B B' : Build} {central : List UInt8} {cursor : Nat} (index : Nat)
    (hdamaged : isDamaged B central cursor = isDamaged B' central cursor)
    (hspans : cursor + 46 < 2 ^ B'.usizeBits → cursor + 46 < 2 ^ B.usizeBits ∧
      ∀ fields, spans B fields cursor = spans B' fields cursor) :
    centralRecord B central index cursor = centralRecord B' central index cursor := by
  rw [centralRecord, centralRecord, hdamaged]
  by_cases hwhole : isDamaged B' central cursor = true
  · simp [hwhole, Fallible.failIf]
  · obtain ⟨hfits', -, -⟩ := cursor_of_not_damaged hwhole
    obtain ⟨hfits, hspans⟩ := hspans hfits'
    have h16 : ∀ k ≤ 46, u16At B central cursor k = u16At B' central cursor k := by
      intro k hk
      rw [u16At_eq hfits hk, u16At_eq hfits' hk]
    have h32 : ∀ k ≤ 46, u32At B central cursor k = u32At B' central cursor k := by
      intro k hk
      rw [u32At_eq hfits hk, u32At_eq hfits' hk]
    have hfields : centralFields B central cursor = centralFields B' central cursor := by
      unfold centralFields
      rw [h16 10 (by decide), h32 16 (by decide), h32 20 (by decide), h32 24 (by decide),
        h16 28 (by decide), h16 30 (by decide), h16 32 (by decide), h32 42 (by decide)]
    simp only [hfields, hspans]

/-- Two builds whose `usize` has room for the directory read the same records. -/
theorem centralRecord_congr {B B' : Build} {central : List UInt8} {cursor : Nat} (index : Nat)
    (hcursor : cursor ≤ central.length) (hroom : central.length + 46 + 3 * 65535 < 2 ^ B.usizeBits)
    (hroom' : central.length + 46 + 3 * 65535 < 2 ^ B'.usizeBits) :
    centralRecord B central index cursor = centralRecord B' central index cursor := by
  apply centralRecord_eq_of
  · rw [isDamaged_of_lt (by omega), isDamaged_of_lt (by omega)]
  · intro _
    refine ⟨by omega, fun fields => ?_⟩
    rw [spans_of_lt fields (by omega), spans_of_lt fields (by omega)]

/-! ### The directory that two targets read -/

section Transfer

variable {S T : Type} [ByteSource S] [ByteSource T] {B B' : Build} {bound : Nat}
  {R : S → T → Prop}

/-- A directory of fewer than `bound` bytes is read on both targets. -/
theorem readDirectory_transfer (h : Similar bound R) (hwindow : END_RECORD_WINDOW < bound)
    (hbound : bound ≤ 2 ^ B.usizeBits) {s : S} {t t' : T} (hst : R s t) {record : EndRecord}
    {central : List UInt8} (hsmall : central.length < bound)
    (hrun : (readDirectory (S := T) B').run t = .done (.ok (record, central), t')) :
    ∃ s', (readDirectory (S := S) B).run s = .done (.ok (record, central), s') ∧ R s' t' := by
  obtain ⟨t₁, length, hend, hlength, hread, hsize⟩ := readDirectory_eq_ok.mp hrun
  obtain ⟨s₁, hend', hst₁⟩ := (readEnd_alike h hwindow).run_of_run hst hend
  have hword : bound ≤ 2 ^ 64 := hbound.trans (Nat.pow_le_pow_right (by decide) B.usizeBits_le)
  have hcount : record.centralSize.toNat = central.length := by
    rw [← hsize]
    exact UInt64.toNat_ofNat_of_lt' (Nat.lt_of_lt_of_le hsmall hword)
  have hsame : length = record.centralSize.toNat := (Build.usizeFrom_eq_some.mp hlength).2
  obtain ⟨s', hread', hst'⟩ :=
    (readSource_alike h record.centralOffset (by omega)).run_of_run hst₁ hread
  refine ⟨s', readDirectory_eq_ok.mpr ⟨s₁, length, hend', ?_, hread', hsize⟩, hst'⟩
  rw [hsame]
  exact if_pos (by omega)

end Transfer

/-! ### The listing of a file -/

variable {content : List UInt8}

/-- A descriptor of a file whose positions fit the `off_t` reads as the content. -/
theorem similar_content {B : Build} {bound : Nat} (hfile : content.length ≤ 2 ^ (B.usizeBits - 1))
    (hbuffer : ∀ length < bound, min content.length length ≤ B.isizeMax) :
    Similar bound fun (s : FdSource B) (t : ContentSource) =>
      FdSource.Reads content s ∧ t = ⟨content⟩ where
  size_eq := by
    rintro s t ⟨hs, rfl⟩
    show s.size = UInt64.ofNat content.length
    rw [← hs.size_eq, UInt64.ofNat_toNat]
  read_alike offset length hlength := by
    have hmin := hbuffer length hlength
    refine .of_returns (FdSource.returns_read hfile offset length (by omega)) ?_
    rintro t rfl
    exact ⟨_, _, rfl, rfl, rfl⟩

/-- A 64-bit target has no limit that a file could reach. -/
theorem similar_content_wide (profile : Profile) (hfile : content.length ≤ 2 ^ 63 - 1) :
    Similar (2 ^ 64) fun (s : FdSource (.wide profile)) (t : ContentSource) =>
      FdSource.Reads content s ∧ t = ⟨content⟩ :=
  similar_content (Nat.le_trans hfile (Nat.sub_le _ _)) fun length _ => by
    rw [Build.isizeMax_wide]
    omega

def onFile (B : Build) (fd : Int32) (content : List UInt8) (schedule : List Event) : FdSource B :=
  ⟨fd, UInt64.ofNat content.length, ⟨content, schedule⟩⟩

/-- Every call is answered, perhaps after interruptions, and perhaps in part. -/
def Successful (schedule : List Event) : Prop := ∀ message, .failed message ∉ schedule

theorem reads_onFile (B : Build) (fd : Int32) (hfile : content.length ≤ 2 ^ 63 - 1)
    {schedule : List Event} (hschedule : Successful schedule) :
    FdSource.Reads content (onFile B fd content schedule) :=
  ⟨rfl, UInt64.toNat_ofNat_of_lt' (show content.length < 2 ^ 64 by omega), hschedule⟩

def listFile (B : Build) (fd : Int32) (content : List UInt8) (schedule : List Event) :
    Outcome (Except ZipError (List ZipEntry)) :=
  (list B).eval (onFile B fd content schedule)

/-- On every schedule of successful calls the two targets list the same. -/
def SameListing (profile : Profile) (fd : Int32) (content : List UInt8) : Prop :=
  ∀ schedule, Successful schedule →
    listFile (.narrow profile) fd content schedule = listFile (.wide profile) fd content schedule

/-- On a 64-bit target the schedule does not matter. -/
theorem listFile_wide (profile : Profile) (fd : Int32) (hfile : content.length ≤ 2 ^ 63 - 1)
    {schedule : List Event} (hschedule : Successful schedule) :
    listFile (.wide profile) fd content schedule =
      (list (.wide profile)).eval (⟨content⟩ : ContentSource) :=
  (list_alike (.wide profile) (similar_content_wide profile hfile)).eval_eq
    ⟨reads_onFile _ fd hfile hschedule, rfl⟩

section Narrow

variable {profile : Profile} {record : EndRecord} {central : List UInt8}
  (hdirectory : (readDirectory (.wide profile)).run (⟨content⟩ : ContentSource) =
    .done (.ok (record, central), ⟨content⟩))
  (hcentral : central.length < 2 ^ 31)

theorem similar_content_narrow (profile : Profile) (hfile : content.length ≤ 2 ^ 31) :
    Similar (2 ^ 31) fun (s : FdSource (.narrow profile)) (t : ContentSource) =>
      FdSource.Reads content s ∧ t = ⟨content⟩ :=
  similar_content hfile fun length hlength => by
    rw [Build.isizeMax_narrow]
    omega

include hdirectory hcentral

/-- A file without positions from `2 ^ 31` on has its directory read on a 32-bit target. -/
theorem readDirectory_narrow (hfile : content.length ≤ 2 ^ 31) {s : FdSource (.narrow profile)}
    (hs : FdSource.Reads content s) :
    ∃ s', (readDirectory (.narrow profile)).run s = .done (.ok (record, central), s') ∧
      FdSource.Reads content s' := by
  obtain ⟨s', hrun, hs', -⟩ := readDirectory_transfer (B := .narrow profile)
    (similar_content_narrow profile hfile) (by decide) (show 2 ^ 31 ≤ 2 ^ 32 by decide)
    ⟨hs, rfl⟩ hcentral hdirectory
  exact ⟨s', hrun, hs'⟩

end Narrow

theorem requestedCapacity_narrow (profile : Profile) {record : EndRecord}
    (hcount : record.entryCount.toNat < 2 ^ 32) :
    requestedCapacity (.narrow profile) record = record.entryCount.toNat := by
  have hfrom : (Build.narrow profile).usizeFrom record.entryCount =
      some record.entryCount.toNat := if_pos hcount
  rw [requestedCapacity, hfrom]
  rfl

theorem withCapacity_narrow (profile : Profile) (record : EndRecord)
    (hcount : record.entryCount.toNat < 2 ^ 32) :
    withCapacity (.narrow profile) (requestedCapacity (.narrow profile) record) = .done () ↔
      48 * record.entryCount.toNat ≤ 2 ^ 31 - 1 := by
  rw [requestedCapacity_narrow profile hcount, withCapacity_eq_done, Build.isizeMax_narrow,
    Nat.mul_comm]
  rfl

theorem list_eq_ok {S : Type} [ByteSource S] {B : Build} {s s₁ s' : S} {record : EndRecord}
    {central : List UInt8} {entries : List ZipEntry}
    (hdirectory : (readDirectory B).run s = .done (.ok (record, central), s₁)) :
    (list B).run s = .done (.ok entries, s') ↔
      withCapacity B (requestedCapacity B record) = .done () ∧
        (walk B central record.entryCount.toNat 0 0).run s₁ = .done (.ok entries, s') := by
  constructor
  · intro h
    rw [list, Reading.bind_of_ok hdirectory] at h
    obtain ⟨_, s₂, hcapacity, hwalk⟩ := Reading.bind_eq_ok.mp h
    obtain ⟨hok, rfl⟩ := Reading.lift_eq_ok.mp hcapacity
    exact ⟨Fallible.lift_eq_ok.mp hok, hwalk⟩
  · rintro ⟨hcapacity, hwalk⟩
    rw [list_run hdirectory hcapacity, hwalk]

section Narrow

variable {profile : Profile} {record : EndRecord} {central : List UInt8} {entries : List ZipEntry}
  (hdirectory : (readDirectory (.wide profile)).run (⟨content⟩ : ContentSource) =
    .done (.ok (record, central), ⟨content⟩))
  (hlist : (list (.wide profile)).run (⟨content⟩ : ContentSource) =
    .done (.ok entries, ⟨content⟩))
  (hcentral : central.length < 2 ^ 31)

include hdirectory hlist in
/-- A listing has found a central record for every entry. -/
theorem count_le_of_list : 46 * record.entryCount.toNat ≤ central.length := by
  have hserves := ContentSource.serves ⟨content⟩
  obtain ⟨-, -, hfits⟩ := (readDirectory_stops hserves.responds).of_run rfl hdirectory
  obtain ⟨-, hwalk⟩ := (list_eq_ok hdirectory).mp hlist
  have hend := (walk_stops hserves.responds central record.entryCount.toNat 0 0
    (Nat.zero_le _)).of_run rfl hwalk
  omega

include hdirectory hlist hcentral

/-- A file that a 32-bit target can reach is listed alike, if the vector is allocated. -/
theorem listing_narrow (hfile : content.length ≤ 2 ^ 31)
    (hvector : 48 * record.entryCount.toNat ≤ 2 ^ 31 - 1)
    {s : FdSource (.narrow profile)} (hs : FdSource.Reads content s) :
    (list (.narrow profile)).eval s = .done (.ok entries) := by
  have hcount := count_le_of_list hdirectory hlist
  obtain ⟨s₁, hrun, hs₁⟩ := readDirectory_narrow hdirectory hcentral hfile hs
  obtain ⟨-, hwalk⟩ := (list_eq_ok hdirectory).mp hlist
  have hnext : ∀ index cursor (next : CentralRecord), cursor ≤ central.length →
      centralRecord (.narrow profile) central index cursor = Fallible.ok next →
      next.next ≤ central.length := by
    intro index cursor next _ hok
    exact ((centralRecord_stops central index cursor).of_ok hok).2
  have hrecord : ∀ index cursor, cursor ≤ central.length →
      centralRecord (.narrow profile) central index cursor =
        centralRecord (.wide profile) central index cursor := by
    intro index cursor hcursor
    exact centralRecord_congr index hcursor (show _ < 2 ^ 32 by omega) (show _ < 2 ^ 64 by omega)
  have halike := walk_alike (similar_content_narrow profile hfile) (by decide)
    (· ≤ central.length) hrecord hnext record.entryCount.toNat 0 0 (Nat.zero_le _)
  obtain ⟨s', hwalk', -⟩ := halike.run_of_run ⟨hs₁, rfl⟩ hwalk
  have hcapacity := (withCapacity_narrow profile record (by omega)).mpr hvector
  exact Reading.eval_of_run ((list_eq_ok hrun).mpr ⟨hcapacity, hwalk'⟩)

/-- A vector that no 32-bit allocation holds ends the listing. -/
theorem listing_narrow_panics (hfile : content.length ≤ 2 ^ 31)
    (hvector : 2 ^ 31 - 1 < 48 * record.entryCount.toNat)
    {s : FdSource (.narrow profile)} (hs : FdSource.Reads content s) :
    (list (.narrow profile)).eval s ≠ .done (.ok entries) := by
  have hcount := count_le_of_list hdirectory hlist
  obtain ⟨s₁, hrun, -⟩ := readDirectory_narrow hdirectory hcentral hfile hs
  intro heval
  obtain ⟨⟨result, s'⟩, hlist', hresult⟩ := Outcome.bind_eq_done.mp heval
  cases hresult
  have hcapacity := (withCapacity_narrow profile record (by omega)).mp
    ((list_eq_ok hrun).mp hlist').1
  omega

end Narrow

theorem readEnd_of_error {S : Type} [ByteSource S] {s s' : S} {e : ByteSourceError}
    (hsize : 22 ≤ (ByteSource.size s).toNat)
    (hread : (ByteSource.read (UInt64.ofNat ((ByteSource.size s).toNat -
        min END_RECORD_WINDOW (ByteSource.size s).toNat))
      (min END_RECORD_WINDOW (ByteSource.size s).toNat)).run s = .done (.error e, s')) :
    (readEnd (S := S)).run s = .done (.error (.source e), s') := by
  have htail : (readSource (UInt64.ofNat ((ByteSource.size s).toNat -
        min END_RECORD_WINDOW (ByteSource.size s).toNat))
      (min END_RECORD_WINDOW (ByteSource.size s).toNat)).run s =
      .done (.error (.source e), s') := by
    rw [readSource, Reading.convert_run, hread]
    rfl
  rw [readEnd, Reading.bind_of_ok (Reading.ask_run _ _), if_neg (by omega)]
  exact Reading.bind_of_error htail _

theorem listFile_of_error {B : Build} {fd : Int32} (hfile : content.length ≤ 2 ^ 63 - 1)
    (hwindow : END_RECORD_WINDOW ≤ content.length) {schedule : List Event} {e : ByteSourceError}
    {self' : FdSource B}
    (hread : (FdSource.read (UInt64.ofNat (content.length - END_RECORD_WINDOW))
        END_RECORD_WINDOW).run (onFile B fd content schedule) = .done (.error e, self')) :
    listFile B fd content schedule = .done (.error (.source e)) := by
  have hsize : (ByteSource.size (onFile B fd content schedule)).toNat = content.length :=
    UInt64.toNat_ofNat_of_lt' (show content.length < 2 ^ 64 by omega)
  have hmin : min END_RECORD_WINDOW content.length = END_RECORD_WINDOW := Nat.min_eq_left hwindow
  have hsmall : 22 ≤ END_RECORD_WINDOW := by decide
  have hend := readEnd_of_error (s := onFile B fd content schedule) (by omega)
    (by rw [hsize, hmin]; exact hread)
  exact Reading.eval_of_run (Reading.bind_of_error (Reading.bind_of_error hend _) _)

section Large

variable (profile : Profile) (fd : Int32) (hfile : content.length ≤ 2 ^ 63 - 1)

theorem window_le_narrow : END_RECORD_WINDOW ≤ (Build.narrow profile).isizeMax := by
  rw [Build.isizeMax_narrow]
  decide

include hfile

/-- A file with a byte behind the reach of a 32-bit `off_t` has a schedule of
    successful calls on which its end record is not read. -/
theorem listFile_out_of_range (hpast : 2 ^ 31 < content.length) :
    ∃ schedule, Successful schedule ∧ listFile (.narrow profile) fd content schedule =
      .done (.error (.source .outOfRange)) := by
  have hconst : END_RECORD_WINDOW = 0xffff + 22 + 76 + 0xffff := rfl
  have hreach : 2 ^ ((Build.narrow profile).usizeBits - 1) = 2 ^ 31 := rfl
  have hstart : (UInt64.ofNat (content.length - END_RECORD_WINDOW)).toNat =
      content.length - END_RECORD_WINDOW :=
    UInt64.toNat_ofNat_of_lt' (show _ < 2 ^ 64 by omega)
  obtain ⟨schedule, hschedule, self', hread⟩ :=
    FdSource.read_out_of_range (B := .narrow profile) fd (UInt64.ofNat content.length)
      (UInt64.ofNat (content.length - END_RECORD_WINDOW))
      (UInt64.toNat_ofNat_of_lt' (show content.length < 2 ^ 64 by omega))
      (show 0 < END_RECORD_WINDOW by decide) (window_le_narrow profile) (by omega) (by omega)
  exact ⟨schedule, hschedule, listFile_of_error hfile (by omega) hread⟩

/-- A file whose whole tail is behind that reach is not listed on any schedule. -/
theorem listFile_behind_reach (hpast : 2 ^ 31 + END_RECORD_WINDOW ≤ content.length)
    (schedule : List Event) :
    listFile (.narrow profile) fd content schedule = .done (.error (.source .outOfRange)) := by
  have hreach : 2 ^ ((Build.narrow profile).usizeBits - 1) = 2 ^ 31 := rfl
  have hstart : (UInt64.ofNat (content.length - END_RECORD_WINDOW)).toNat =
      content.length - END_RECORD_WINDOW :=
    UInt64.toNat_ofNat_of_lt' (show _ < 2 ^ 64 by omega)
  exact listFile_of_error hfile (by omega) <|
    FdSource.read_behind_reach (B := .narrow profile) fd (UInt64.ofNat content.length)
      (UInt64.ofNat (content.length - END_RECORD_WINDOW))
      (UInt64.toNat_ofNat_of_lt' (show content.length < 2 ^ 64 by omega))
      (show 0 < END_RECORD_WINDOW by decide) (window_le_narrow profile) (by omega) (by omega)
      schedule

end Large

/-- **Exactly when the listing does not depend on the ABI.** For a file whose
    listing succeeds on a 64-bit target, with a central directory below
    `2 ^ 31` bytes, the 32-bit target lists the same on every schedule of
    successful calls if and only if the file has no byte at a position from
    `2 ^ 31` on and the vector of its entries is no larger than an allocation. -/
theorem sameListing_iff (profile : Profile) (fd : Int32) (hfile : content.length ≤ 2 ^ 63 - 1)
    {schedule : List Event} (hschedule : Successful schedule) {record : EndRecord}
    {central : List UInt8} {entries : List ZipEntry}
    (hdirectory : (readDirectory (.wide profile)).eval (onFile (.wide profile) fd content schedule) =
      .done (.ok (record, central)))
    (hlist : listFile (.wide profile) fd content schedule = .done (.ok entries))
    (hcentral : central.length < 2 ^ 31) :
    SameListing profile fd content ↔
      content.length ≤ 2 ^ 31 ∧ 48 * record.entryCount.toNat ≤ 2 ^ 31 - 1 := by
  have hsimilar := similar_content_wide profile hfile
  have hreads := reads_onFile (.wide profile) fd hfile hschedule
  have hwide : (list (.wide profile)).eval (⟨content⟩ : ContentSource) = .done (.ok entries) := by
    rw [← listFile_wide profile fd hfile hschedule, hlist]
  obtain ⟨-, _, hdirectory', -, rfl⟩ :=
    (readDirectory_alike (.wide profile) hsimilar).run_of_eval ⟨hreads, rfl⟩ hdirectory
  obtain ⟨-, _, hlist', -, rfl⟩ :=
    (list_alike (.wide profile) hsimilar).run_of_eval ⟨hreads, rfl⟩ hlist
  constructor
  · intro hsame
    have hnarrow : ∀ schedule', Successful schedule' →
        listFile (.narrow profile) fd content schedule' = .done (.ok entries) := by
      intro schedule' hschedule'
      rw [hsame schedule' hschedule', listFile_wide profile fd hfile hschedule', hwide]
    by_contra hnot
    by_cases hreach : content.length ≤ 2 ^ 31
    · exact listing_narrow_panics hdirectory' hlist' hcentral hreach (by omega)
        (reads_onFile (.narrow profile) fd hfile hschedule) (hnarrow schedule hschedule)
    · obtain ⟨schedule', hschedule', hrange⟩ :=
        listFile_out_of_range profile fd hfile (Nat.lt_of_not_le hreach)
      cases hrange.symm.trans (hnarrow schedule' hschedule')
  · rintro ⟨hreach, hvector⟩ schedule' hschedule'
    rw [listFile_wide profile fd hfile hschedule', hwide]
    exact listing_narrow hdirectory' hlist' hcentral hreach hvector
      (reads_onFile (.narrow profile) fd hfile hschedule')

/-- One entry, with a call that is interrupted and one that transfers five bytes. -/
theorem sameListing_iff_sample : SameListing .debug 3 sampleArchive.bytes := by
  have hfile : sampleArchive.bytes.length ≤ 2 ^ 63 - 1 := by decide +kernel
  have hschedule : Successful [.interrupted, .progress 5] := by
    intro message
    simp
  have hmemory := sampleArchive.fitsMemory_of_length_le (B := .wide .debug) hfile
  have hlist : listFile (.wide .debug) 3 sampleArchive.bytes [.interrupted, .progress 5] =
      .done (.ok sampleArchive.listing) := by
    rw [listFile_wide .debug 3 hfile hschedule]
    exact eval_archive _ sampleArchive (by decide +kernel) sampleArchive_endIsFound hmemory
  have hdirectory : (readDirectory (.wide .debug)).eval
      (onFile (.wide .debug) 3 sampleArchive.bytes [.interrupted, .progress 5]) =
      .done (.ok (⟨1, 65, 38⟩, Format.directory (Format.placed 0 [sampleEntry]))) := by
    have halike := readDirectory_alike (.wide .debug) (similar_content_wide .debug hfile)
    have hholds := ContentSource.holds ⟨sampleArchive.bytes⟩ (by decide +kernel)
    obtain ⟨result, s', hrun, -, rfl⟩ :=
      readDirectory_returns sampleArchive hholds rfl sampleArchive_endIsFound hmemory
        ⟨sampleArchive.bytes⟩ rfl
    rw [halike.eval_eq ⟨reads_onFile _ 3 hfile hschedule, rfl⟩]
    exact Reading.eval_of_run hrun
  have hiff := sameListing_iff .debug 3 hfile hschedule hdirectory hlist (by decide +kernel)
  exact hiff.mpr ⟨by decide +kernel, by decide⟩

/-! ### An archive behind padding -/

def padded (zeros : Nat) : Format.EndedFile :=
  { emptyArchive with front := List.replicate zeros 0 }

theorem length_padded (zeros : Nat) : (padded zeros).bytes.length = zeros + 22 := by
  rw [Format.EndedFile.length_bytes]
  show (List.replicate zeros 0).length + 0 + 22 + 0 = zeros + 22
  rw [List.length_replicate]

theorem eocdAt_padded (zeros : Nat) : (padded zeros).eocdAt = zeros := by
  show (List.replicate zeros 0).length + 0 = zeros
  rw [List.length_replicate, Nat.add_zero]

theorem not_hasLocator_padded (zeros : Nat) :
    ¬ HasLocator (padded zeros).bytes (padded zeros).eocdAt := by
  rw [eocdAt_padded]
  rintro ⟨hroom, hsignature⟩
  have hle : zeros - 20 ≤ (padded zeros).bytes.length := by
    rw [length_padded]
    omega
  have hdrop : (padded zeros).bytes.drop (zeros - 20) =
      List.replicate 20 0 ++ (padded 0).ending.eocdPart := by
    show (List.replicate zeros 0 ++ ([] ++ (padded 0).ending.eocdPart)).drop (zeros - 20) = _
    rw [List.drop_append_of_le_length (by rw [List.length_replicate]; omega), List.drop_replicate,
      Nat.sub_sub_self hroom, List.nil_append]
  have hfront := hasSignature_drop hle 0 ZIP64_LOCATOR
  rw [hdrop, Nat.add_zero, hsignature] at hfront
  exact absurd hfront (by decide)

theorem endIsFound_padded (zeros : Nat) : (padded zeros).EndIsFound := by
  refine Or.inl ⟨?_, Or.inr (Or.inl (not_hasLocator_padded zeros))⟩
  rintro ⟨k, hk, hle, -⟩
  rw [length_padded] at hle
  rw [eocdAt_padded] at hk
  omega

section Padded

variable {zeros : Nat} (hzeros : zeros + 22 < 2 ^ 64)

include hzeros

theorem readDirectory_padded (profile : Profile) :
    (readDirectory (.wide profile)).run (⟨(padded zeros).bytes⟩ : ContentSource) =
      .done (.ok (⟨0, 0, 0⟩, []), ⟨(padded zeros).bytes⟩) := by
  have hholds := ContentSource.holds ⟨(padded zeros).bytes⟩ (by rwa [length_padded])
  obtain ⟨_, _, hend, rfl, rfl⟩ :=
    (padded zeros).readEnd_returns hholds rfl (endIsFound_padded zeros) _ rfl
  exact readDirectory_eq_ok.mpr ⟨_, 0, hend, rfl, rfl, rfl⟩

theorem list_padded (profile : Profile) :
    (list (.wide profile)).run (⟨(padded zeros).bytes⟩ : ContentSource) =
      .done (.ok [], ⟨(padded zeros).bytes⟩) :=
  (list_eq_ok (readDirectory_padded hzeros profile)).mpr ⟨by cases profile <;> decide, rfl⟩

end Padded

theorem successful_nil : Successful [] := fun _ hmem => absurd hmem List.not_mem_nil

section Padded

variable {zeros : Nat} (hzeros : zeros + 22 ≤ 2 ^ 63 - 1)

include hzeros

theorem readDirectory_onFile_padded (profile : Profile) (fd : Int32) :
    (readDirectory (.wide profile)).eval (onFile (.wide profile) fd (padded zeros).bytes []) =
      .done (.ok (⟨0, 0, 0⟩, [])) := by
  have hfile : (padded zeros).bytes.length ≤ 2 ^ 63 - 1 := by rwa [length_padded]
  have halike := readDirectory_alike (.wide profile) (similar_content_wide profile hfile)
  rw [halike.eval_eq ⟨reads_onFile _ fd hfile successful_nil, rfl⟩]
  exact Reading.eval_of_run (readDirectory_padded (by omega) profile)

theorem listFile_padded (profile : Profile) (fd : Int32) :
    listFile (.wide profile) fd (padded zeros).bytes [] = .done (.ok []) := by
  rw [listFile_wide profile fd (by rwa [length_padded]) successful_nil]
  exact Reading.eval_of_run (list_padded (by omega) profile)

end Padded

/-- Behind four gibibytes of padding the archive without entries is listed on a
    64-bit target, and on a 32-bit target its end is out of range. -/
theorem listFile_large :
    (padded 0x100000000).bytes.length = 4294967318 ∧
      (readDirectory (.wide .release)).eval
          (onFile (.wide .release) 3 (padded 0x100000000).bytes []) =
        .done (.ok (⟨0, 0, 0⟩, [])) ∧
      listFile (.wide .release) 3 (padded 0x100000000).bytes [] = .done (.ok []) ∧
      listFile (.narrow .release) 3 (padded 0x100000000).bytes [] =
        .done (.error (.source .outOfRange)) ∧
      ¬ SameListing .release 3 (padded 0x100000000).bytes := by
  have hlength : (padded 0x100000000).bytes.length = 4294967318 := length_padded _
  have hconst : END_RECORD_WINDOW = 131168 := rfl
  have hwide : listFile (.wide .release) 3 (padded 0x100000000).bytes [] = .done (.ok []) :=
    listFile_padded (by decide) .release 3
  have hnarrow : listFile (.narrow .release) 3 (padded 0x100000000).bytes [] =
      .done (.error (.source .outOfRange)) :=
    listFile_behind_reach .release 3 (by omega) (by omega) []
  refine ⟨hlength, readDirectory_onFile_padded (by decide) .release 3, hwide, hnarrow, ?_⟩
  intro hsame
  cases (hnarrow.symm.trans (hsame [] successful_nil)).trans hwide

end ImgTools.Zip
