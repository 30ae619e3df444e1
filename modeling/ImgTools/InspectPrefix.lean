import ImgTools.BootHeaderPrefix
import ImgTools.Inspect

/-!
# An inspection sees no more than a prefix

Every signature ends within the first 4100 bytes, and a header within 2128. A
file that is longer passes every check of a length, and so does its prefix; the
fields that are then read lie in both.
-/

namespace ImgTools

open Exec Fallible

/-! ### The signatures of a prefix -/

section Signatures

variable (B : Build) {bytes : List UInt8} {offset : Nat} {magic : List UInt8}

theorem magicAt_eq (bytes : List UInt8) (hfits : offset + magic.length < 2 ^ 32) :
    magicAt B bytes offset magic =
      if offset + magic.length ≤ bytes.length then
        .done ((bytes.take (offset + magic.length)).drop offset == magic)
      else .done false := by
  have hword : 2 ^ 32 ≤ 2 ^ B.usizeBits := Nat.pow_le_pow_right (by decide) B.usizeBits_ge
  have hguard : saturatingAdd B.usizeBits offset magic.length = offset + magic.length := by
    unfold saturatingAdd
    omega
  have hstop : (B.arith B.usizeBits).add offset magic.length = .done (offset + magic.length) :=
    Arith.add_of_fits (Build.arith_fits.mpr (by omega))
  unfold magicAt
  rw [hguard, hstop, Outcome.done_bind]
  split
  · next hle =>
    rw [slice_of_le (Nat.le_add_right _ _) hle]
    rfl
  · rfl

theorem magicAt_ends (bytes : List UInt8) (hfits : offset + magic.length < 2 ^ 32) :
    (magicAt B bytes offset magic).Ends := by
  rw [magicAt_eq B bytes hfits]
  exact .ite (fun _ => .done _) fun _ => .done _

theorem magicAt_take {k : Nat} (hk : 4100 ≤ k) (hmagic : offset + magic.length ≤ 4100) :
    magicAt B (bytes.take k) offset magic = magicAt B bytes offset magic := by
  have hfits : offset + magic.length < 2 ^ 32 := by omega
  rw [magicAt_eq B _ hfits, magicAt_eq B _ hfits, List.take_take, Nat.min_eq_left (by omega),
    List.length_take]
  refine if_congr ?_ rfl rfl
  omega

end Signatures

theorem orElse_ends {a b : Outcome Bool} (ha : a.Ends) (hb : b.Ends) : (orElse a b).Ends :=
  ha.bind fun _ _ => .ite (fun _ => .done _) fun _ => hb

theorem detectBoot_ends (bytes : List UInt8) : (detectBoot bytes).Ends := by
  refine (parseBootHeader_stops bytes).run_ends.bind fun result _ => ?_
  cases result with
  | ok header => exact .ite (fun _ => .done _) fun _ => .done _
  | error e => exact .done _

/-- The test of a signature before the tests that follow it. -/
theorem ends_of_test {test : Outcome Bool} {x y : Outcome Int32} (htest : test.Ends)
    (hx : x.Ends) (hy : y.Ends) : (test >>= fun found => if found then x else y).Ends :=
  htest.bind fun _ _ => .ite (fun _ => hx) fun _ => hy

theorem detect_ends (B : Build) (bytes : List UInt8) : (detect B bytes).Ends := by
  have hmagic : ∀ {offset magic}, offset + magic.length ≤ 4100 →
      (magicAt B bytes offset magic).Ends := fun h => magicAt_ends B bytes (by omega)
  unfold detect
  refine ends_of_test (hmagic (by decide)) (detectBoot_ends bytes) ?_
  refine ends_of_test (hmagic (by decide)) (.done _) ?_
  refine ends_of_test (hmagic (by decide)) (.done _) ?_
  refine ends_of_test (hmagic (by decide)) (.done _) ?_
  refine ends_of_test (orElse_ends (hmagic (by decide)) (hmagic (by decide))) (.done _) ?_
  refine ends_of_test (orElse_ends (hmagic (by decide))
    (orElse_ends (hmagic (by decide)) (hmagic (by decide)))) (.done _) ?_
  refine ends_of_test (hmagic (by decide)) (.done _) ?_
  refine ends_of_test (hmagic (by decide)) (.done _) ?_
  refine ends_of_test (hmagic (by decide)) (.done _) ?_
  refine ends_of_test (hmagic (by decide)) (.done _) ?_
  refine ends_of_test (hmagic (by decide)) (.done _) ?_
  exact ends_of_test (orElse_ends (hmagic (by decide)) (hmagic (by decide))) (.done _) (.done _)

theorem headerDetails_ends (bytes : List UInt8) : (headerDetails bytes).Ends := by
  refine (parseBootHeader_stops bytes).run_ends.bind fun result _ => ?_
  cases result with
  | ok header => exact .done _
  | error e =>
    refine (parseVendorBootHeader_stops bytes).run_ends.bind fun result _ => ?_
    cases result with
    | ok header => exact .done _
    | error e => exact .done _

section Prefix

variable (B : Build) (bytes : List UInt8) {k : Nat} (hk : 4100 ≤ k)

include hk

theorem parseHeaders_take :
    parseBootHeader (bytes.take k) = parseBootHeader bytes ∧
      parseVendorBootHeader (bytes.take k) = parseVendorBootHeader bytes := by
  have hlarge : vendorHeaderV4Size ≤ k := Nat.le_trans (by decide) hk
  constructor
  · apply parseBootHeader_take bytes (Nat.le_trans (by decide) hlarge)
    intro version _
    exact (bootHeaderSize_le version).trans (Nat.le_trans (by decide) hlarge)
  · apply parseVendorBootHeader_take bytes (Nat.le_trans (by decide) hlarge)
    intro version _
    exact (vendorBootHeaderSize_le version).trans hlarge

theorem detect_take : detect B (bytes.take k) = detect B bytes := by
  unfold detect detectBoot
  rw [(parseHeaders_take bytes hk).1]
  repeat rw [magicAt_take B hk]
  all_goals decide

theorem headerDetails_take : headerDetails (bytes.take k) = headerDetails bytes := by
  rw [headerDetails, (parseHeaders_take bytes hk).1, (parseHeaders_take bytes hk).2, headerDetails]

end Prefix

/-! ### The file and its bytes -/

section File

variable {B : Build} (fd : Int32) {size : Int64} (hsize : 0 ≤ size) (bytes : List UInt8)
  (schedule : List Event)

include hsize

/-- The prefix that an inspection reads, unless a call fails. -/
theorem read_prefix :
    let read := (ByteSource.read (S := FdSource B) 0 65536).eval
      ⟨fd, size.toUInt64, ⟨bytes, schedule⟩⟩
    read = .done (.ok (bytes.take (min size.toNatClampNeg 65536))) ∨
      ∃ message, .failed message ∈ schedule ∧ read = .done (.error (.io message)) := by
  intro read
  have hlength : size.toUInt64.toNat = size.toNatClampNeg := Int64.toNat_toUInt64_of_le hsize
  have hmax := B.isizeMax_ge
  have hreach : 2 ^ 31 ≤ 2 ^ (B.usizeBits - 1) :=
    Nat.pow_le_pow_right (by decide) (Nat.sub_le_sub_right B.usizeBits_ge 1)
  obtain ⟨⟨result, self'⟩, hrun, used, rest, hschedule, -, hok, hfailed⟩ :=
    FdSource.read_spec (B := B) ⟨fd, size.toUInt64, ⟨bytes, schedule⟩⟩ 0 65536
      (Nat.le_trans (Nat.min_le_right _ _) (Nat.le_trans (by decide) hreach))
      (Nat.le_trans (Nat.min_le_right _ _) (Nat.le_trans (by decide) hmax))
  dsimp only at hschedule hok hfailed
  have heval : read = .done result := Reading.eval_of_run hrun
  rw [hlength] at hok
  by_cases hquiet : ∀ message, .failed message ∉ used
  · exact Or.inl (heval.trans (congrArg Outcome.done (hok hquiet)))
  · obtain ⟨message, hmem⟩ := not_forall_not.mp hquiet
    refine Or.inr ⟨message, hschedule ▸ List.mem_append_left rest hmem, ?_⟩
    rw [heval, hfailed message hmem]

theorem inspectFile_eq {J : Type} (newString : String → Option J) (hfd : 0 ≤ fd) :
    inspectFile newString B fd size ⟨bytes, schedule⟩ =
        report newString B (bytes.take (min size.toNatClampNeg 65536)) ∨
      ∃ message, .failed message ∈ schedule ∧
        inspectFile newString B fd size ⟨bytes, schedule⟩ = .done none := by
  have hnew : FdSource.new B fd size.toUInt64 ⟨bytes, schedule⟩ =
      .ok ⟨fd, size.toUInt64, ⟨bytes, schedule⟩⟩ := if_neg (Int32.not_lt.mpr hfd)
  unfold inspectFile
  rw [if_neg (Int64.not_lt.mpr hsize)]
  rcases read_prefix (B := B) fd hsize bytes schedule with hread | ⟨message, hmem, hread⟩
  · refine Or.inl ?_
    simp only [hnew, hread, Outcome.done_bind]
  · refine Or.inr ⟨message, hmem, ?_⟩
    simp only [hnew, hread, Outcome.done_bind, Outcome.pure_eq]

/-- The report of an inspection that is given at least the part of the file that matters. -/
theorem inspectFile_covered {J : Type} (newString : String → Option J) (hfd : 0 ≤ fd)
    (hcovers : min 4100 bytes.length ≤ size.toNatClampNeg) {code : Int32} {detail : String}
    (hcode : detect B bytes = .done code) (hdetail : headerDetails bytes = .done detail) :
    inspectFile newString B fd size ⟨bytes, schedule⟩ = .done (newString s!"{code}|{detail}") ∨
      ∃ message, .failed message ∈ schedule ∧
        inspectFile newString B fd size ⟨bytes, schedule⟩ = .done none := by
  obtain ⟨k, hk⟩ : ∃ k, k = min size.toNatClampNeg 65536 := ⟨_, rfl⟩
  have hsame : detect B (bytes.take k) = .done code ∧
      headerDetails (bytes.take k) = .done detail := by
    rcases Nat.lt_or_ge size.toNatClampNeg 4100 with hshort | hlong
    · rw [List.take_of_length_le (by omega)]
      exact ⟨hcode, hdetail⟩
    · have hinitial : 4100 ≤ k := by omega
      exact ⟨(detect_take B bytes hinitial).trans hcode,
        (headerDetails_take bytes hinitial).trans hdetail⟩
  have hreport : report newString B (bytes.take k) = .done (newString s!"{code}|{detail}") := by
    rw [report, hsame.1, Outcome.done_bind, hsame.2, Outcome.done_bind, Outcome.pure_eq]
  rw [← hreport, hk]
  exact inspectFile_eq fd hsize bytes schedule newString hfd

end File

/-- **An inspection of a file sees what an inspection of its bytes does.** A
    prefix of 4100 bytes or more is detected, and its header described, as the
    whole. The size that an entry is given need only cover such a prefix, and
    the result is lost only to a call that failed. -/
theorem inspect_prefix (B : Build) (bytes : List UInt8) :
    (∀ k, 4100 ≤ k → detect B (bytes.take k) = detect B bytes ∧
      headerDetails (bytes.take k) = headerDetails bytes) ∧
    ∃ code detail, detectFormat B (some bytes) = .done code ∧
      headerDetails bytes = .done detail ∧
      ∀ {J : Type} (newString : String → Option J),
        inspectHeader newString (some bytes) = .done (newString detail) ∧
        ∀ (fd : Int32) (size : Int64) (schedule : List Event), 0 ≤ fd → 0 ≤ size →
          min 4100 bytes.length ≤ size.toNatClampNeg →
          inspectFile newString B fd size ⟨bytes, schedule⟩ =
              .done (newString s!"{code}|{detail}") ∨
            ∃ message, .failed message ∈ schedule ∧
              inspectFile newString B fd size ⟨bytes, schedule⟩ = .done none := by
  refine ⟨fun k hk => ⟨detect_take B bytes hk, headerDetails_take bytes hk⟩, ?_⟩
  obtain ⟨code, hcode⟩ := detect_ends B bytes
  obtain ⟨detail, hdetail⟩ := headerDetails_ends bytes
  refine ⟨code, detail, hcode, hdetail, fun {J} newString => ⟨?_, ?_⟩⟩
  · rw [inspectHeader, hdetail]
    rfl
  · intro fd size schedule hfd hsize hcovers
    exact inspectFile_covered fd hsize bytes schedule newString hfd hcovers hcode hdetail

/-- A payload that is longer than the prefix that is read, with an interrupted call and one
    that is cut short. -/
theorem inspect_prefix_payload :
    let bytes : List UInt8 := [0x43, 0x72, 0x41, 0x55] ++ List.replicate 70000 0
    inspectFile some (.wide .debug) 3 70004 ⟨bytes, [.interrupted, .progress 1000]⟩ =
      .done (some "4|Header details unavailable for this format") := by
  intro bytes
  obtain ⟨hinitial, code, detail, hcode, hdetail, hfile⟩ := inspect_prefix (.wide .debug) bytes
  obtain ⟨hsame, hsame'⟩ := hinitial 4100 (by decide)
  have hpayload : detect (.wide .debug) (bytes.take 4100) = .done OTA_PAYLOAD := by
    decide +kernel
  have hnone : headerDetails (bytes.take 4100) =
      .done "Header details unavailable for this format" := by decide +kernel
  cases hcode.symm.trans (hsame.symm.trans hpayload)
  cases hdetail.symm.trans (hsame'.symm.trans hnone)
  have hcovers : min 4100 bytes.length ≤ Int64.toNatClampNeg 70004 :=
    (Nat.min_le_left _ _).trans (by decide)
  rcases (hfile some).2 3 70004 [.interrupted, .progress 1000] (by decide) (by decide) hcovers with
    hresult | ⟨message, hmem, -⟩
  · exact hresult
  · simp at hmem

end ImgTools
