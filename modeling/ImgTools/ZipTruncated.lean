import ImgTools.Related
import ImgTools.ZipRoundTrip

/-!
# Archives that were cut off

An archive of which only the first `k` bytes are there, such as a download that did
not finish. Up to its end record the reader sees no end of an archive and says so;
behind it only the comment is cut, which the reader does not look at, so that the
listing is that of the whole archive. It never lists anything else.
-/

namespace ImgTools.Zip

open Exec LittleEndian

/-! ### What is appended -/

section Append

variable {core : List UInt8} (back : List UInt8)

theorem u16le_append_left {o : Nat} (h : o + 2 ≤ core.length) :
    u16le (core ++ back) o = u16le core o := by
  rw [u16le, u16le, read?_append_left h]

theorem u32le_append_left {o : Nat} (h : o + 4 ≤ core.length) :
    u32le (core ++ back) o = u32le core o := by
  rw [u32le, u32le, read?_append_left h]

theorem u64le_append_left {o : Nat} (h : o + 8 ≤ core.length) :
    u64le (core ++ back) o = u64le core o := by
  rw [u64le, u64le, read?_append_left h]

theorem hasSignature_append_left {o : Nat} (h : o + 4 ≤ core.length) (signature : UInt32) :
    hasSignature (core ++ back) o signature = hasSignature core o signature := by
  rw [hasSignature, hasSignature, u32le_append_left back h]

theorem plainEnd_append_left {o : Nat} (h : o + 20 ≤ core.length) :
    plainEnd (core ++ back) o = plainEnd core o := by
  rw [plainEnd, plainEnd, u16le_append_left back (by omega), u32le_append_left back (by omega),
    u32le_append_left back (by omega)]

/-- The position of an end record denotes the same in front of other bytes, if what
    its locator leads to is not among them. -/
theorem denotes_append_left {j : Nat} (hroom : j + 20 ≤ core.length)
    (hwide : ∀ offset, HasLocator core j → u64le core (j - 20 + 8) = .ok offset →
      offset.toNat + 56 ≤ core.length) : denotes (core ++ back) j = denotes core j := by
  have hlocator : HasLocator (core ++ back) j ↔ HasLocator core j := by
    rw [HasLocator, HasLocator, hasSignature_append_left back (by omega)]
  have hwidened : HasLocator core j → widened (core ++ back) (j - 20) = widened core (j - 20) := by
    intro h
    have hnear := h.1
    rw [widened, widened, u64le_append_left back (by omega)]
    cases hoffset : u64le core (j - 20 + 8) with
    | error e => rfl
    | ok offset =>
      have hinside := hwide offset h hoffset
      show (zip64Fields _).toOption = (zip64Fields _).toOption
      rw [List.drop_append_of_le_length (by omega),
        List.take_append_of_le_length (by rw [List.length_drop]; omega)]
  rw [denotes, denotes, plainEnd_append_left back hroom]
  by_cases h : HasLocator core j
  · simp only [if_pos (hlocator.mpr h), if_pos h, hwidened h]
  · simp only [if_neg (mt hlocator.mp h), if_neg h]

end Append

/-- A signature of the first bytes is one of the whole. -/
theorem hasSignature_of_take {bytes : List UInt8} {k o : Nat} {signature : UInt32}
    (hroom : o + 4 ≤ (bytes.take k).length)
    (h : hasSignature (bytes.take k) o signature = true) :
    hasSignature bytes o signature = true := by
  rw [← hasSignature_append_left (bytes.drop k) hroom, List.take_append_drop] at h
  exact h

/-! ### A file without an end record -/

theorem scanEocd_eq_none {tail : List UInt8} (last : Nat)
    (h : ∀ i, i ≤ last → hasSignature tail i EOCD = false) : scanEocd tail last = none := by
  induction last with
  | zero => rw [scanEocd, h 0 (Nat.le_refl 0), if_neg Bool.false_ne_true]
  | succ last ih =>
    rw [scanEocd, h (last + 1) (Nat.le_refl _), if_neg Bool.false_ne_true]
    exact ih fun i hi => h i (Nat.le_succ_of_le hi)

section Source

variable {S : Type} [ByteSource S] {content : List UInt8} {P : S → Prop}

/-- The reader finds no end in a file that has no signature of one. -/
theorem readEnd_missing (hholds : Holds content P) (hlen : content.length < 2 ^ 64)
    (hnone : ∀ j, j + 22 ≤ content.length → hasSignature content j EOCD = false) :
    Reading.Returns P (readEnd (S := S))
      (.error (if content.length < 22 then .tooShort else .missingEocd)) := by
  unfold readEnd
  refine Reading.Meets.bind (Q := fun result => ∃ size, result = .ok size ∧
    size.toNat = content.length) (.ask fun s hs => ⟨_, rfl, hholds.size_eq s hs⟩) ?_
    (by rintro e ⟨_, h, _⟩; cases h)
  rintro size ⟨_, ⟨⟩, hsize⟩
  rw [hsize]
  split
  · exact Reading.Returns.fail _
  · obtain ⟨window, hwindow⟩ : ∃ window, window = min END_RECORD_WINDOW content.length := ⟨_, rfl⟩
    obtain ⟨base, hbase⟩ : ∃ base, base = content.length - window := ⟨_, rfl⟩
    have hle : base ≤ content.length := by omega
    have hoffset : (UInt64.ofNat base).toNat = base :=
      UInt64.toNat_ofNat_of_lt' (Nat.lt_of_le_of_lt hle hlen)
    have htail : (content.drop base).take window = content.drop base :=
      List.take_of_length_le (by rw [List.length_drop]; omega)
    have hread := readSource_returns hholds (UInt64.ofNat base) window (hoffset.trans_le hle)
    rw [hoffset, htail] at hread
    have hscan : findEocd (content.drop base) = none := by
      unfold findEocd
      split
      · next hroom =>
        refine scanEocd_eq_none _ fun i hi => ?_
        rw [hasSignature_drop hle]
        rw [List.length_drop] at hroom hi
        exact hnone _ (by omega)
      · rfl
    simp only [← hwindow, ← hbase]
    refine Reading.Returns.bind hread ?_
    rw [hscan]
    exact Reading.Returns.fail _

theorem list_missing {B : Build} (hholds : Holds content P) (hlen : content.length < 2 ^ 64)
    (hnone : ∀ j, j + 22 ≤ content.length → hasSignature content j EOCD = false) :
    Reading.Returns P (list (S := S) B)
      (.error (if content.length < 22 then .tooShort else .missingEocd)) := by
  unfold list readDirectory
  exact .bind_error (.bind_error (readEnd_missing hholds hlen hnone))

end Source

/-! ### An archive up to its comment -/

namespace Format

namespace EndedFile

variable (file : EndedFile)

theorem front_isPrefix_take {k : Nat} (hk : file.eocdAt ≤ k) :
    file.front <+: file.bytes.take k := by
  refine List.prefix_take_iff.mpr ⟨List.prefix_append _ _, ?_⟩
  have hat : file.front.length ≤ file.eocdAt := Nat.le_add_right _ _
  omega

/-- The file without its comment. -/
def core : List UInt8 := file.bytes.take (file.eocdAt + 22)

theorem length_core : file.core.length = file.eocdAt + 22 := by
  have hlength := file.length_bytes
  rw [core, List.length_take]
  omega

theorem core_append_comment : file.core ++ file.bytes.drop (file.eocdAt + 22) = file.bytes :=
  List.take_append_drop _ _

theorem take_of_eocdAt_le {k : Nat} (hk : file.eocdAt + 22 ≤ k) :
    ∃ back, file.bytes.take k = file.core ++ back := by
  have hcore := file.length_core
  refine ⟨(file.bytes.drop (file.eocdAt + 22)).take (k - file.core.length), ?_⟩
  conv_lhs => rw [← file.core_append_comment]
  rw [List.take_append, List.take_of_length_le (by omega)]

/-- What the locator of an archive in ZIP64 form leads to stands before the end record. -/
theorem locator_inside {form : Zip64Form} (h : file.ending.zip64 = some form) {offset : UInt64}
    (hoffset : u64le file.core (file.eocdAt - 20 + 8) = .ok offset) :
    offset.toNat + 56 ≤ file.core.length := by
  obtain ⟨hroom, hdrop⟩ := file.drop_locator h
  have hbytes := file.length_bytes
  have hcore := file.length_core
  have hat : u64le file.bytes (file.eocdAt - 20 + 8) = .ok (UInt64.ofNat file.front.length) := by
    rw [← u64le_drop (by omega), hdrop]
    exact u64le_zip64Locator _
  rw [← file.core_append_comment, u64le_append_left _ (by omega), hoffset] at hat
  have hfront : (UInt64.ofNat file.front.length).toNat ≤ file.front.length := by
    rw [UInt64.toNat_ofNat']
    exact Nat.mod_le _ _
  have heocd : file.eocdAt = file.front.length +
      (zip64Eocd form.versions form.extensible.length file.ending.record ++ (form.extensible ++
        zip64Locator form.locatorDisk file.front.length form.locatorDisks)).length := by
    rw [eocdAt, Ending.zip64Part, h]
  rw [List.length_append, length_zip64Eocd] at heocd
  cases hat
  omega

/-- In front of other bytes the end record denotes what it did in front of the comment. -/
theorem denotes_core_append (back : List UInt8) (hlen : file.bytes.length < 2 ^ 64)
    (hlocator : HasLocator file.bytes file.eocdAt → file.ending.zip64.isSome) :
    denotes (file.core ++ back) file.eocdAt = some file.ending.record := by
  have hcore := file.length_core
  have hwide : ∀ offset, HasLocator file.core file.eocdAt →
      u64le file.core (file.eocdAt - 20 + 8) = .ok offset →
      offset.toNat + 56 ≤ file.core.length := by
    intro offset hhas hoffset
    have hwhole : HasLocator file.bytes file.eocdAt := by
      rw [← file.core_append_comment]
      exact ⟨hhas.1, (hasSignature_append_left _ (by omega) _).trans hhas.2⟩
    obtain ⟨form, hform⟩ := Option.isSome_iff_exists.mp (hlocator hwhole)
    exact file.locator_inside hform hoffset
  rw [denotes_append_left back (by omega) hwide,
    ← denotes_append_left (file.bytes.drop (file.eocdAt + 22))
    (by omega) hwide, file.core_append_comment]
  cases hform : file.ending.zip64 with
  | some form => exact file.denotes_zip64 hform hlen
  | none =>
    rw [file.denotes_plain hform, if_neg]
    intro h
    rw [hform] at hlocator
    exact absurd (hlocator h) Bool.false_ne_true

end EndedFile

end Format

open Format

section Archive

variable {S : Type} [ByteSource S] {content : List UInt8} {P : S → Prop} (archive : Archive)

/-- **An archive that was cut off.** Where the end record has the only signature of
    one, the first `k` bytes of an archive are listed as the whole when they reach to
    its comment, and have no end that is found when they do not. -/
theorem list_truncated {B : Build} (k : Nat) (hk : k ≤ archive.bytes.length)
    (hholds : Holds (archive.bytes.take k) P) (hlen : archive.bytes.length < 2 ^ 64)
    (honly : ∀ j, j + 22 ≤ archive.bytes.length → hasSignature archive.bytes j EOCD = true →
      j = archive.file.eocdAt)
    (hlocator : HasLocator archive.bytes archive.file.eocdAt → archive.ending.zip64.isSome)
    (hmemory : archive.FitsMemory B) :
    Reading.Returns P (list (S := S) B)
      (if k < 22 then .error .tooShort
        else if k < archive.file.eocdAt + 22 then .error .missingEocd
        else .ok archive.listing) := by
  have hlength : (archive.bytes.take k).length = k := List.length_take_of_le hk
  have hcut : (archive.bytes.take k).length < 2 ^ 64 := by omega
  have hwhole : archive.bytes.length = archive.file.eocdAt + 22 +
      archive.file.ending.comment.length := archive.file.length_bytes
  have hbehind : ∀ j, j ≠ archive.file.eocdAt → j + 22 ≤ (archive.bytes.take k).length →
      hasSignature (archive.bytes.take k) j EOCD = false := by
    intro j hj hroom
    refine Bool.eq_false_iff.mpr fun hsignature => hj (honly j (by omega) ?_)
    exact hasSignature_of_take (by omega) hsignature
  by_cases hend : k < archive.file.eocdAt + 22
  · have h := list_missing (B := B) hholds hcut fun j hroom => hbehind j (by omega) hroom
    rw [hlength] at h
    by_cases hshort : k < 22
    · rwa [if_pos hshort] at h ⊢
    · rw [if_neg hshort] at h ⊢
      rwa [if_pos hend]
  · rw [if_neg (by omega), if_neg hend]
    have hroom := Nat.not_lt.mp hend
    have hcore := archive.file.length_core
    obtain ⟨back, hback⟩ : ∃ back, archive.bytes.take k = archive.file.core ++ back :=
      archive.file.take_of_eocdAt_le hroom
    have hlast : IsLastEocd (archive.bytes.take k) archive.file.eocdAt := by
      refine ⟨by omega, ?_, fun j hj hle => hbehind j (by omega) hle⟩
      rw [hback, hasSignature_append_left _ (by omega)]
      have hsignature := archive.file.hasSignature_eocdAt
      rwa [← archive.file.core_append_comment, hasSignature_append_left _ (by omega)] at hsignature
    have hcomment := archive.file.ending.comment_le
    have hread := readEnd_meets hholds hlast (by omega)
    have hdenotes := archive.file.denotes_core_append back hlen hlocator
    rw [← hback] at hdenotes
    rw [hdenotes] at hread
    refine list_of_front archive hholds (archive.file.front_isPrefix_take (by omega))
      (hread.mono ?_) hmemory hcut
    intro result hresult
    match result, hresult with
    | .ok record, hresult => exact congrArg Except.ok (Option.some.inj hresult)

end Archive

/-- Half of the comment is missing, or the end record is not there as a whole. -/
theorem list_truncated_sample :
    (list ⟨.bits32, .debug⟩).eval (⟨sampleArchive.bytes.take 126⟩ : ContentSource) =
        .done (.ok sampleArchive.listing) ∧
      (list ⟨.bits32, .debug⟩).eval (⟨sampleArchive.bytes.take 124⟩ : ContentSource) =
        .done (.error .missingEocd) := by
  have hlength : sampleArchive.bytes.length = 127 := by decide +kernel
  have hat : sampleArchive.file.eocdAt = 103 := by decide +kernel
  have honly : ∀ j, j + 22 ≤ sampleArchive.bytes.length →
      hasSignature sampleArchive.bytes j EOCD = true → j = sampleArchive.file.eocdAt := by
    have hall : ∀ j < 106, hasSignature sampleArchive.bytes j EOCD = true → j = 103 := by
      decide +kernel
    intro j hj
    rw [hat]
    exact hall j (by omega)
  have hlocator : HasLocator sampleArchive.bytes sampleArchive.file.eocdAt →
      sampleArchive.ending.zip64.isSome := by
    rw [hat]
    decide +kernel
  have hcut : ∀ k ≤ 127, (list ⟨.bits32, .debug⟩).eval
      (⟨sampleArchive.bytes.take k⟩ : ContentSource) = .done (if k < 22 then .error .tooShort
        else if k < 103 + 22 then .error .missingEocd else .ok sampleArchive.listing) := by
    intro k hk
    have hholds := ContentSource.holds ⟨sampleArchive.bytes.take k⟩
      (by rw [List.length_take]; omega)
    have h := list_truncated (B := ⟨.bits32, .debug⟩) sampleArchive k (by omega) hholds (by omega)
      honly hlocator (sampleArchive.fitsMemory_of_length_le (by rw [hlength]; decide))
    rw [hat] at h
    obtain ⟨result, s', hrun, -, rfl⟩ := h _ rfl
    exact Reading.eval_of_run hrun
  exact ⟨hcut 126 (by decide), hcut 124 (by decide)⟩

end ImgTools.Zip
