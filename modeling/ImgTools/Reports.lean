import ImgTools.InspectPrefix
import ImgTools.MainActivity
import ImgTools.ZipFaults

/-!
# Reports are taken apart

What `inspectFile` and `listZip` return for a descriptor of a whole file is given by the
bytes of the file, unless a system call fails; and the activity reads back from the
report of an inspection the code and the details that were written into it.
-/

namespace ImgTools

open Exec Fallible Kotlin

/-! ### Reports -/

theorem isBlank_headerDetails (C : Characters) {bytes : List UInt8} {detail : String}
    (h : headerDetails bytes = .done detail) : isBlank C detail = false := by
  have hunit : isBlank C " B" = false :=
    isBlank_eq_false C (c := 'B') (by decide) (by decide) (by decide)
  obtain ⟨result, -, hresult⟩ := Outcome.bind_eq_done.mp h
  cases result with
  | ok header =>
    obtain rfl := Outcome.done.inj hresult
    exact isBlank_append C _ (isBlank_append C _ hunit)
  | error e =>
    obtain ⟨result, -, hresult⟩ := Outcome.bind_eq_done.mp hresult
    cases result with
    | ok header =>
      obtain rfl := Outcome.done.inj hresult
      exact isBlank_append C _ (isBlank_append C _ hunit)
    | error e =>
      obtain rfl := Outcome.done.inj hresult
      exact isBlank_eq_false C (c := 'H') (by decide) (by decide) (by decide)

/-- The report of an inspection is taken apart again. -/
theorem detectionOf_report (M : Machine) (code : Int32) {detail : String}
    (hdetail : isBlank M.characters detail = false) (listed : Fallible Throwable (Option String)) :
    detectionOf M s!"{code}|{detail}" listed =
      if code = ZIP then do
        let zipReport := (← listed).getD "ZIP listing failed."
        return ⟨(detectionFor code).label, s!"{detail}\\n{zipReport}"⟩
      else return ⟨(detectionFor code).label, detail⟩ := by
  have htext : s!"{code}|{detail}" = toString code ++ String.singleton '|' ++ detail := rfl
  have hseparator : '|' ∉ (toString code).toList :=
    Text.notMem_intRepr (by decide) (by decide) code.toInt
  have hcode : toIntOrNull M.characters
      (substringBefore (toString code ++ String.singleton '|' ++ detail) '|') = some code := by
    rw [substringBefore_append hseparator, toIntOrNull_toString]
  have hpositive : ((toString code).length : Int) ≥ 0 := Int.natCast_nonneg _
  have hlast : ((toString code).length + 1 : Int).toNat = (toString code).length + 1 := rfl
  rw [htext]
  unfold detectionOf
  simp only [hcode, indexOf_append hseparator, if_pos hpositive, hlast, substring_append,
    Option.getD_some, hdetail]
  rfl

/-! ### The functions of the engine over a whole file -/

section File

variable {B : Build} {fd : Int32} (hfd : 0 ≤ fd) {size : Int64} (hsize : 0 ≤ size)
  {bytes : List UInt8} (hwhole : size.toNatClampNeg = bytes.length)

include hfd hsize hwhole

theorem listZip_whole (hfile : bytes.length ≤ B.isizeMax) {J : Type}
    (newString : String → Option J) (quoted : String → String) (schedule : List Event) :
    (listZip quoted newString B fd size ⟨bytes, schedule⟩ = do
      let result ← (Zip.list B).eval (⟨bytes⟩ : ContentSource)
      return newString (zipReport quoted result)) ∨
      ∃ message, FirstFailure schedule message ∧
        listZip quoted newString B fd size ⟨bytes, schedule⟩ =
          .done (newString (errorReport quoted (.source (.io message)))) := by
  have hnew : FdSource.new B fd size.toUInt64 ⟨bytes, schedule⟩ =
      .ok ⟨fd, size.toUInt64, ⟨bytes, schedule⟩⟩ := if_neg (Int32.not_lt.mpr hfd)
  have hrun : listZip quoted newString B fd size ⟨bytes, schedule⟩ = do
      let result ← (Zip.list B).eval (⟨fd, size.toUInt64, ⟨bytes, schedule⟩⟩ : FdSource B)
      return newString (zipReport quoted result) := by
    unfold listZip
    rw [if_neg (Int64.not_lt.mpr hsize), hnew]
    refine bind_congr fun result => ?_
    cases result <;> rfl
  let self : FdSource B := ⟨fd, size.toUInt64, ⟨bytes, schedule⟩⟩
  have hself : self.size.toNat = self.device.content.length :=
    (Int64.toNat_toUInt64_of_le hsize).trans hwhole
  rw [hrun]
  rcases (FdSource.list_alikeUnless hself hfile).eval (.start self) with
    heq | ⟨e, ⟨message, rfl, hfirst⟩, hfailed⟩
  · exact Or.inl (by rw [heq])
  · exact Or.inr ⟨message, hfirst, by rw [hfailed]; rfl⟩

variable {schedule : List Event} (hcalls : ∀ message, .failed message ∉ schedule)

include hcalls

/-- The report of an inspection, and what the activity makes of it. -/
theorem inspectFile_report {code : Int32} {detail : String} (hcode : detect B bytes = .done code)
    (hdetail : headerDetails bytes = .done detail) :
    ∃ report, inspectFile some B fd size ⟨bytes, schedule⟩ = .done (some report) ∧
      ∀ (M : Machine) listed, detectionOf M report listed =
        if code = ZIP then do
          let zipReport := (← listed).getD "ZIP listing failed."
          return ⟨(detectionFor code).label, s!"{detail}\\n{zipReport}"⟩
        else return ⟨(detectionFor code).label, detail⟩ := by
  refine ⟨s!"{code}|{detail}", ?_, fun M listed =>
    detectionOf_report M code (isBlank_headerDetails M.characters hdetail) listed⟩
  have hcovers : min 4100 bytes.length ≤ size.toNatClampNeg := hwhole ▸ Nat.min_le_right _ _
  rcases inspectFile_covered fd hsize bytes schedule some hfd hcovers hcode hdetail with
    hrun | ⟨message, hfailed, -⟩
  · exact hrun
  · exact absurd hfailed (hcalls message)

theorem listZip_report (hfile : bytes.length ≤ B.isizeMax) (quoted : String → String)
    {result : Except Zip.ZipError (List Zip.ZipEntry)}
    (hlist : (Zip.list B).eval (⟨bytes⟩ : ContentSource) = .done result) :
    listZip quoted some B fd size ⟨bytes, schedule⟩ = .done (some (zipReport quoted result)) := by
  rcases listZip_whole hfd hsize hwhole hfile some quoted schedule with
    hrun | ⟨message, hfirst, -⟩
  · rw [hrun, hlist]
    rfl
  · exact absurd hfirst.mem (hcalls message)

end File

end ImgTools
