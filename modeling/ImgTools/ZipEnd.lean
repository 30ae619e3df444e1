import ImgTools.ZipFormat
import Mathlib.Data.Nat.Find

/-!
# Where the end record is

What `read_end` returns, over any source that holds a file, is a function of the
file alone: the scan stops at the last end-record signature, and `denotes` says
which record that position leads to. An archive whose true end record is not the
last signature, or which has stray locator bytes before it, is read wrongly
unless what it leads to happens to agree; the last theorem says so exactly.
-/

namespace ImgTools.Zip

open Exec

/-! ### Positions of a file -/

/-- The last position that has the end-record signature and room for the record. -/
structure IsLastEocd (bytes : List UInt8) (j : Nat) : Prop where
  room : j + 22 ≤ bytes.length
  signature : hasSignature bytes j EOCD = true
  last : ∀ k, j < k → k + 22 ≤ bytes.length → hasSignature bytes k EOCD = false

theorem IsLastEocd.unique {bytes : List UInt8} {j k : Nat} (hj : IsLastEocd bytes j)
    (hk : IsLastEocd bytes k) : j = k := by
  have hjroom := hj.room
  have hkroom := hk.room
  rcases Nat.lt_trichotomy j k with hlt | heq | hlt
  · exact absurd hk.signature (by rw [hj.last k hlt hkroom]; decide)
  · exact heq
  · exact absurd hj.signature (by rw [hk.last j hlt hjroom]; decide)

def HasLocator (bytes : List UInt8) (eocd : Nat) : Prop :=
  20 ≤ eocd ∧ hasSignature bytes (eocd - 20) ZIP64_LOCATOR = true

instance (bytes : List UInt8) (eocd : Nat) : Decidable (HasLocator bytes eocd) :=
  inferInstanceAs (Decidable (_ ∧ _))

/-- The 64-bit record that the locator leads to, if there is one. -/
def widened (bytes : List UInt8) (locator : Nat) : Option EndRecord :=
  (u64le bytes (locator + 8)).toOption.bind fun offset =>
    (zip64Fields ((bytes.drop offset.toNat).take 56)).toOption

/-- The record that the position `eocd` of a file leads to, if there is one. -/
def denotes (bytes : List UInt8) (eocd : Nat) : Option EndRecord :=
  (plainEnd bytes eocd).toOption.bind fun record =>
    if HasLocator bytes eocd then widened bytes (eocd - 20)
    else if 20 ≤ eocd ∧ isSentinel record then none
    else some record

/-! ### The tail of a file -/

section Tail

variable {bytes : List UInt8} {base : Nat} (hbase : base ≤ bytes.length)

include hbase

theorem u16le_drop (o : Nat) : u16le (bytes.drop base) o = u16le bytes (base + o) := by
  rw [u16le, u16le, LittleEndian.read?_drop _ _ _ _ hbase]

theorem u32le_drop (o : Nat) : u32le (bytes.drop base) o = u32le bytes (base + o) := by
  rw [u32le, u32le, LittleEndian.read?_drop _ _ _ _ hbase]

theorem u64le_drop (o : Nat) : u64le (bytes.drop base) o = u64le bytes (base + o) := by
  rw [u64le, u64le, LittleEndian.read?_drop _ _ _ _ hbase]

theorem hasSignature_drop (o : Nat) (signature : UInt32) :
    hasSignature (bytes.drop base) o signature = hasSignature bytes (base + o) signature := by
  rw [hasSignature, hasSignature, u32le_drop hbase]

theorem plainEnd_drop (o : Nat) : plainEnd (bytes.drop base) o = plainEnd bytes (base + o) := by
  simp only [plainEnd, u16le_drop hbase, u32le_drop hbase, Nat.add_assoc]

theorem IsLastEocd.drop {i : Nat} (h : IsLastEocd bytes (base + i)) :
    IsLastEocd (bytes.drop base) i := by
  have hroom := h.room
  refine ⟨by rw [List.length_drop]; omega, by rw [hasSignature_drop hbase]; exact h.signature, ?_⟩
  intro k hk hle
  rw [List.length_drop] at hle
  rw [hasSignature_drop hbase]
  exact h.last (base + k) (by omega) (by omega)

end Tail

/-! ### The scan -/

theorem scanEocd_of_last {tail : List UInt8} {i : Nat}
    (hsignature : hasSignature tail i EOCD = true)
    (last : Nat) (hi : i ≤ last)
    (hlast : ∀ k, i < k → k ≤ last → hasSignature tail k EOCD = false) :
    scanEocd tail last = some i := by
  induction last with
  | zero =>
    have hzero : i = 0 := by omega
    subst hzero
    rw [scanEocd, if_pos hsignature]
  | succ last ih =>
    by_cases heq : i = last + 1
    · subst heq
      rw [scanEocd, if_pos hsignature]
    · rw [scanEocd, if_neg (by rw [hlast (last + 1) (by omega) (Nat.le_refl _)]; decide)]
      exact ih (by omega) fun k hk hle => hlast k hk (by omega)

/-- The scan finds the last signature. -/
theorem findEocd_of_last {tail : List UInt8} {i : Nat} (h : IsLastEocd tail i) :
    findEocd tail = some i := by
  have hroom := h.room
  rw [findEocd, if_pos (by omega)]
  exact scanEocd_of_last h.signature _ (by omega) fun k hk hle => h.last k hk (by omega)

/-- The tail that is read has a signature that is not too far from the end, with what may
    stand before it. -/
theorem IsLastEocd.in_tail {content : List UInt8} {j window : Nat} (hlast : IsLastEocd content j)
    (hwindow : content.length ≤ j + (22 + 0xffff))
    (hmin : window = min END_RECORD_WINDOW content.length) :
    ∃ i, j = content.length - window + i ∧ (20 ≤ i ∨ content.length - window = 0) ∧
      (content.drop (content.length - window)).take window =
        content.drop (content.length - window) ∧
      findEocd (content.drop (content.length - window)) = some i := by
  have hroom := hlast.room
  have hconst : END_RECORD_WINDOW = 0xffff + 22 + 76 + 0xffff := rfl
  obtain ⟨i, rfl⟩ : ∃ i, j = content.length - window + i :=
    ⟨j - (content.length - window), by omega⟩
  refine ⟨i, rfl, by omega, List.take_of_length_le (by rw [List.length_drop]; omega), ?_⟩
  exact findEocd_of_last (hlast.drop (Nat.sub_le _ _))

theorem exists_isLastEocd {bytes : List UInt8} {e : Nat} (hroom : e + 22 ≤ bytes.length)
    (hsignature : hasSignature bytes e EOCD = true) : ∃ j, e ≤ j ∧ IsLastEocd bytes j := by
  let found (k : Nat) : Prop := k + 22 ≤ bytes.length ∧ hasSignature bytes k EOCD = true
  have hbound : e ≤ bytes.length := by omega
  have hfound : found (Nat.findGreatest found bytes.length) :=
    Nat.findGreatest_spec hbound ⟨hroom, hsignature⟩
  refine ⟨Nat.findGreatest found bytes.length,
    Nat.le_findGreatest hbound ⟨hroom, hsignature⟩, hfound.1, hfound.2, ?_⟩
  intro k hk hle
  have hnot : ¬ found k := Nat.findGreatest_is_greatest hk (by omega)
  simpa using fun h => hnot ⟨hle, h⟩

/-! ### The reader over a source -/

section Source

variable {S : Type} [ByteSource S] {content : List UInt8} {P : S → Prop}

/-- A read of a held file returns its bytes, unless it starts behind them. -/
theorem readSource_meets (hholds : Holds content P) (offset : UInt64) (length : Nat) :
    Reading.Meets P (readSource offset length) fun result =>
      result = .ok ((content.drop offset.toNat).take length) ∨
      content.length < offset.toNat ∧ ∃ e, result = .error e := by
  by_cases hle : offset.toNat ≤ content.length
  · exact .convert (hholds.read_eq offset length hle) (by rintro _ rfl; exact Or.inl rfl)
  · refine .convert (hholds.read_past offset length (by omega)) ?_
    intro result hresult
    match result, hresult with
    | .ok bytes, hresult =>
      rw [hresult bytes rfl, List.drop_eq_nil_of_le (by omega), List.take_nil]
      exact Or.inl rfl
    | .error e, _ => exact Or.inr ⟨by omega, .source e, rfl⟩

theorem readSource_returns (hholds : Holds content P) (offset : UInt64) (length : Nat)
    (hle : offset.toNat ≤ content.length) :
    Reading.Returns P (readSource offset length)
      (.ok ((content.drop offset.toNat).take length)) := by
  refine (readSource_meets hholds offset length).mono ?_
  rintro result (h | ⟨hlt, -⟩)
  · exact h
  · omega

theorem zip64End_meets (hholds : Holds content P) {base : Nat} (hbase : base ≤ content.length)
    (locator : Nat) :
    Reading.Meets P (zip64End (S := S) (content.drop base) locator) fun result =>
      result.toOption = widened content (base + locator) := by
  unfold zip64End widened
  rw [u64le_drop hbase, ← Nat.add_assoc]
  refine .bind (Reading.Returns.except _) (fun offset hoffset => ?_) (fun e he => ?_)
  · rw [← hoffset]
    refine .bind (readSource_meets hholds offset 56) (fun record64 hrecord => ?_)
      (fun e he => ?_)
    · rcases hrecord with h | ⟨-, e, h⟩
      · cases h
        exact (Reading.Returns.except _).mono (by rintro _ rfl; rfl)
      · cases h
    · rcases he with h | ⟨hlt, -⟩
      · cases h
      · show none = (zip64Fields ((content.drop offset.toNat).take 56)).toOption
        rw [List.drop_eq_nil_of_le (by omega)]
        rfl
  · rw [← he]
    rfl

/-- **What the reader makes of a position** of the tail is what the position
    denotes in the file, when the tail reaches far enough before it. -/
theorem endAt_meets (hholds : Holds content P) {base i : Nat} (hbase : base ≤ content.length)
    (hfar : 20 ≤ i ∨ base = 0) :
    Reading.Meets P (endAt (S := S) (content.drop base) i) fun result =>
      result.toOption = denotes content (base + i) := by
  unfold endAt denotes
  rw [plainEnd_drop hbase]
  refine .bind (Reading.Returns.except _) (fun record hrecord => ?_) (fun e he => ?_)
  · rw [← hrecord]
    show Reading.Meets P _ fun result => result.toOption =
      if HasLocator content (base + i) then widened content (base + i - 20)
      else if 20 ≤ base + i ∧ isSentinel record then none else some record
    by_cases hi : 20 ≤ i
    · have hposition : base + (i - 20) = base + i - 20 := by omega
      have hlocator : HasLocator content (base + i) ↔
          hasSignature (content.drop base) (i - 20) ZIP64_LOCATOR = true := by
        rw [hasSignature_drop hbase, hposition, HasLocator]
        exact ⟨fun h => h.2, fun h => ⟨by omega, h⟩⟩
      simp only [checkedSub, if_pos hi, hlocator, show 20 ≤ base + i by omega, true_and]
      split
      · rw [← hposition]
        exact zip64End_meets hholds hbase (i - 20)
      · split
        · exact (Reading.Returns.fail _).mono (by rintro _ rfl; rfl)
        · exact (Reading.Returns.pure record).mono (by rintro _ rfl; rfl)
    · have hnear : ¬ 20 ≤ base + i := by omega
      simp only [checkedSub, if_neg hi, HasLocator, hnear, false_and, if_false]
      exact (Reading.Returns.pure record).mono (by rintro _ rfl; rfl)
  · rw [← he]
    rfl

/-- **What `read_end` returns.** Over a source that holds a file whose last
    signature is no further from the end than the longest comment allows, the
    reader returns the record which that signature denotes. -/
theorem readEnd_meets (hholds : Holds content P) {j : Nat} (hlast : IsLastEocd content j)
    (hwindow : content.length ≤ j + (22 + 0xffff)) :
    Reading.Meets P (readEnd (S := S)) fun result => result.toOption = denotes content j := by
  have hroom := hlast.room
  have hconst : END_RECORD_WINDOW = 0xffff + 22 + 76 + 0xffff := rfl
  obtain ⟨window, hmin⟩ : ∃ window, window = min END_RECORD_WINDOW content.length := ⟨_, rfl⟩
  obtain ⟨i, rfl, hfar, htail, hfound⟩ := hlast.in_tail hwindow hmin
  have hle : content.length - window ≤ content.length := Nat.sub_le _ _
  unfold readEnd
  refine .bind (Q := fun result => ∃ size, result = .ok size ∧ size.toNat = content.length)
    (.ask fun s hs => ⟨_, rfl, hholds.size_eq s hs⟩) ?_ (by rintro e ⟨_, h, _⟩; cases h)
  rintro size ⟨_, ⟨⟩, hsize⟩
  have hoffset : (UInt64.ofNat (content.length - window)).toNat = content.length - window :=
    UInt64.toNat_ofNat_of_lt' (Nat.lt_of_le_of_lt hle (hsize ▸ size.toNat_lt))
  have hread := readSource_returns hholds _ window (hoffset.trans_le hle)
  rw [hoffset, htail] at hread
  simp only [hsize, ← hmin]
  rw [if_neg (by omega)]
  refine Reading.Returns.bind hread ?_
  rw [hfound]
  exact endAt_meets hholds hle hfar

end Source

/-! ### Archives -/

namespace Format.EndedFile

variable (file : EndedFile)

theorem eocdAt_le : file.eocdAt ≤ file.bytes.length := by
  rw [file.length_bytes]
  omega

theorem hasSignature_eocdAt : hasSignature file.bytes file.eocdAt EOCD = true := by
  rw [← Nat.add_zero file.eocdAt, ← hasSignature_drop file.eocdAt_le, file.drop_eocdAt]
  exact file.ending.hasSignature_eocdPart

theorem plainEnd_eocdAt : plainEnd file.bytes file.eocdAt = plainEnd file.ending.eocdPart 0 := by
  rw [← file.drop_eocdAt, plainEnd_drop file.eocdAt_le, Nat.add_zero]

section Zip64

variable {form : Zip64Form} (h : file.ending.zip64 = some form)

include h

theorem hasLocator_zip64 : HasLocator file.bytes file.eocdAt := by
  obtain ⟨hroom, hdrop⟩ := file.drop_locator h
  have hle : file.eocdAt - 20 ≤ file.bytes.length := (Nat.sub_le _ _).trans file.eocdAt_le
  refine ⟨hroom, ?_⟩
  rw [← Nat.add_zero (file.eocdAt - 20), ← hasSignature_drop hle, hdrop]
  exact hasSignature_zip64Locator _ _ _ _

/-- The locator leads to the end of the directory. -/
theorem recordOffset_zip64 : u64le file.bytes (file.eocdAt - 20 + 8) =
    .ok (UInt64.ofNat file.front.length) := by
  have hle : file.eocdAt - 20 ≤ file.bytes.length := (Nat.sub_le _ _).trans file.eocdAt_le
  rw [← u64le_drop hle, (file.drop_locator h).2]
  exact u64le_zip64Locator _

end Zip64

theorem toNat_length_front (hlen : file.bytes.length < 2 ^ 64) :
    (UInt64.ofNat file.front.length).toNat = file.front.length := by
  refine UInt64.toNat_ofNat_of_lt' (Nat.lt_of_le_of_lt ?_ hlen)
  rw [bytes, List.length_append]
  omega

/-- In ZIP64 form the true end record denotes the record of the archive. -/
theorem denotes_zip64 {form : Zip64Form} (h : file.ending.zip64 = some form)
    (hlen : file.bytes.length < 2 ^ 64) :
    denotes file.bytes file.eocdAt = some file.ending.record := by
  obtain ⟨record, hrecord⟩ := file.ending.plainEnd_isOk
  rw [denotes, file.plainEnd_eocdAt, hrecord]
  show (if HasLocator file.bytes file.eocdAt then _ else _) = _
  rw [if_pos (file.hasLocator_zip64 h), widened, file.recordOffset_zip64 h]
  show (zip64Fields ((file.bytes.drop (UInt64.ofNat file.front.length).toNat).take 56)).toOption = _
  rw [file.toNat_length_front hlen, file.take_record64 h, zip64Fields_zip64Eocd]
  rfl

/-- In plain form it denotes what stray locator bytes lead to, and else the record. -/
theorem denotes_plain (h : file.ending.zip64 = none) :
    denotes file.bytes file.eocdAt =
      if HasLocator file.bytes file.eocdAt then widened file.bytes (file.eocdAt - 20)
      else some file.ending.record := by
  rw [denotes, file.plainEnd_eocdAt, Ending.plainEnd_eocdPart h]
  show (if HasLocator file.bytes file.eocdAt then _ else _) = _
  rw [Ending.isSentinel_record h]
  simp

/-- A signature with room for a record stands behind the true end record. -/
def LaterEocd : Prop :=
  ∃ k, file.eocdAt < k ∧ k + 22 ≤ file.bytes.length ∧ hasSignature file.bytes k EOCD = true

/-- The condition for the end record to be found: it is the last signature, and an
    archive that is not in ZIP64 form has no stray locator bytes before it; or what
    the stray bytes lead to says the same as the true record. -/
def EndIsFound : Prop :=
  (¬ file.LaterEocd ∧ (file.ending.zip64.isSome ∨ ¬ HasLocator file.bytes file.eocdAt ∨
    widened file.bytes (file.eocdAt - 20) = some file.ending.record)) ∨
  ∃ j, file.eocdAt < j ∧ IsLastEocd file.bytes j ∧
    denotes file.bytes j = some file.ending.record

/-- The last signature of the file denotes the record of the archive under
    exactly that condition. -/
theorem denotes_iff (hlen : file.bytes.length < 2 ^ 64) {j : Nat} (hj : file.eocdAt ≤ j)
    (hlast : IsLastEocd file.bytes j) :
    denotes file.bytes j = some file.ending.record ↔ file.EndIsFound := by
  rcases Nat.eq_or_lt_of_le hj with rfl | hlt
  · -- the true end record is the last signature
    have hnot : ¬ file.LaterEocd := by
      rintro ⟨k, hk, hle, hsignature⟩
      exact absurd hsignature (by rw [hlast.last k hk hle]; decide)
    have hbehind : ¬ ∃ j, file.eocdAt < j ∧ IsLastEocd file.bytes j ∧
        denotes file.bytes j = some file.ending.record := by
      rintro ⟨k, hk, hkLast, -⟩
      exact Nat.ne_of_lt hk (hlast.unique hkLast)
    rw [EndIsFound, or_iff_left hbehind]
    cases hzip64 : file.ending.zip64 with
    | none =>
      rw [file.denotes_plain hzip64]
      by_cases hlocator : HasLocator file.bytes file.eocdAt
      · simp [hnot, hlocator]
      · simp [hnot, hlocator]
    | some form =>
      rw [file.denotes_zip64 hzip64 hlen]
      simp [hnot]
  · -- a later signature is the last
    have hlater : file.LaterEocd := ⟨j, hlt, hlast.room, hlast.signature⟩
    rw [EndIsFound]
    constructor
    · intro h
      exact Or.inr ⟨j, hlt, hlast, h⟩
    · rintro (⟨hnot, -⟩ | ⟨k, -, hkLast, h⟩)
      · exact absurd hlater hnot
      · rw [hlast.unique hkLast]
        exact h

theorem exists_isLastEocd_ge : ∃ j, file.eocdAt ≤ j ∧ IsLastEocd file.bytes j :=
  exists_isLastEocd (by rw [file.length_bytes]; omega) file.hasSignature_eocdAt

/-- The end record of an archive is within the window of the scan. -/
theorem eocdAt_window {j : Nat} (hj : file.eocdAt ≤ j) :
    file.bytes.length ≤ j + (22 + 0xffff) := by
  have hcomment := file.ending.comment_le
  rw [file.length_bytes]
  omega

section Source

variable {S : Type} [ByteSource S] {P : S → Prop}

theorem readEnd_returns (hholds : Holds file.bytes P) {s : S} (hs : P s)
    (h : file.EndIsFound) : Reading.Returns P (readEnd (S := S)) (.ok file.ending.record) := by
  have hlen : file.bytes.length < 2 ^ 64 := by
    rw [← hholds.size_eq s hs]
    exact (ByteSource.size s).toNat_lt
  obtain ⟨j, hj, hlast⟩ := file.exists_isLastEocd_ge
  refine (readEnd_meets hholds hlast (file.eocdAt_window hj)).mono ?_
  intro result hresult
  rw [(file.denotes_iff hlen hj hlast).mpr h] at hresult
  match result, hresult with
  | .ok record, hresult => exact congrArg Except.ok (Option.some.inj hresult)

/-- **Exactly when the true end record is read.** Over any source that holds an
    archive, the reader returns the record of the archive if and only if its end
    can be told from its bytes in the way the reader does. -/
theorem readEnd_iff (hholds : Holds file.bytes P) {s : S} (hs : P s) :
    (∃ s', (readEnd (S := S)).run s = .done (.ok file.ending.record, s')) ↔
      file.EndIsFound := by
  have hlen : file.bytes.length < 2 ^ 64 := by
    rw [← hholds.size_eq s hs]
    exact (ByteSource.size s).toNat_lt
  obtain ⟨j, hj, hlast⟩ := file.exists_isLastEocd_ge
  rw [← file.denotes_iff hlen hj hlast]
  obtain ⟨result, s', hrun, -, hresult⟩ :=
    readEnd_meets hholds hlast (file.eocdAt_window hj) s hs
  rw [← hresult]
  constructor
  · rintro ⟨s'', hrun'⟩
    rw [hrun] at hrun'
    rw [(Prod.mk.inj (Outcome.done.inj hrun')).1]
    rfl
  · intro h
    match result, h with
    | .ok record, h =>
      cases h
      exact ⟨s', hrun⟩

end Source

end Format.EndedFile

open Format in
def commented : EndedFile :=
  ⟨LittleEndian.encode 4 LOCAL_HEADER.toNat ++ LittleEndian.encode 10 0 ++
    LittleEndian.encode 4 0xd8932aac ++ LittleEndian.encode 4 2 ++ LittleEndian.encode 4 2 ++
    LittleEndian.encode 4 1 ++ [97, 104, 105] ++
    LittleEndian.encode 4 CENTRAL_HEADER.toNat ++ LittleEndian.encode 12 0 ++
    LittleEndian.encode 4 0xd8932aac ++ LittleEndian.encode 4 2 ++ LittleEndian.encode 4 2 ++
    LittleEndian.encode 2 1 ++ LittleEndian.encode 16 0 ++ [97],
    ⟨⟨1, 47, 33⟩, none, 0, [97, 98, 99], by decide, by decide⟩⟩

theorem readEnd_iff_commented :
    let source : MemorySource ⟨.bits64, .release⟩ := ⟨commented.bytes, by decide +kernel⟩
    ∃ source', readEnd.run source = .done (.ok ⟨1, 47, 33⟩, source') := by
  intro source
  have hiff := commented.readEnd_iff (MemorySource.holds source) rfl
  refine hiff.mpr (Or.inl ⟨?_, Or.inr (Or.inl (by decide +kernel))⟩)
  rintro ⟨k, hk, hroom, hsignature⟩
  have hlength : commented.bytes.length = 105 := by decide +kernel
  have hat : commented.eocdAt = 80 := by decide +kernel
  obtain rfl | rfl | rfl : k = 81 ∨ k = 82 ∨ k = 83 := by omega
  · exact absurd hsignature (by decide +kernel)
  · exact absurd hsignature (by decide +kernel)
  · exact absurd hsignature (by decide +kernel)

open Format in
def emptyArchive : EndedFile :=
  ⟨[], ⟨⟨0, 0, 0⟩, none, 0, [], by decide, by decide⟩⟩

open Format in
/-- An empty archive whose comment is an end record of one entry, with a comment
    length that does not reach the end of the file. -/
def fakeComment : EndedFile :=
  ⟨[], ⟨⟨0, 0, 0⟩, none, 0, eocd 0 1 0 0 (List.replicate 7 0) |>.take 22, by decide, by decide⟩⟩

open Format in
/-- An archive of one stored file without a name or data, in plain form, whose
    central record has a comment that starts as a locator does. -/
def strayLocator : EndedFile :=
  ⟨LittleEndian.encode 4 LOCAL_HEADER.toNat ++ LittleEndian.encode 26 0 ++
    LittleEndian.encode 4 CENTRAL_HEADER.toNat ++ LittleEndian.encode 28 0 ++
    LittleEndian.encode 2 20 ++ LittleEndian.encode 12 0 ++
    LittleEndian.encode 4 ZIP64_LOCATOR.toNat ++ LittleEndian.encode 16 0,
    ⟨⟨1, 66, 30⟩, none, 0, [], by decide, by decide⟩⟩

/-- The end record of the comment is taken for that of the archive, and the stray
    locator bytes for a locator. -/
theorem readEnd_misled :
    readEnd.run (⟨fakeComment.bytes⟩ : ContentSource) =
        .done (.ok ⟨1, 0, 0⟩, ⟨fakeComment.bytes⟩) ∧
      fakeComment.ending.record = ⟨0, 0, 0⟩ ∧
      readEnd.run (⟨strayLocator.bytes⟩ : ContentSource) =
        .done (.error .invalidZip64, ⟨strayLocator.bytes⟩) ∧
      strayLocator.ending.record = ⟨1, 66, 30⟩ :=
  ⟨by decide +kernel, rfl, by decide +kernel, rfl⟩

end ImgTools.Zip
