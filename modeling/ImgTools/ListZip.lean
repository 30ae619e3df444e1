import ImgTools.FdSource
import ImgTools.Related
import ImgTools.Text
import ImgTools.Zip

/-!
# The report of a listing

The entry `listZip` of `lib.rs`. Its report has a line for each of the first 200
entries; it denotes the listing as far as no name goes over a line, and never
passes for the report of an error.
-/

namespace ImgTools

open Exec

/-! ### The entry -/

section Entry

-- `{:?}` of a text
variable (quoted : String → String)

def ByteSourceError.debug : ByteSourceError → String
  | .outOfRange => "OutOfRange"
  | .io message => s!"Io({quoted message})"

def Zip.ZipError.debug : Zip.ZipError → String
  | .tooShort => "TooShort"
  | .missingEocd => "MissingEocd"
  | .invalidEocd => "InvalidEocd"
  | .invalidZip64 => "InvalidZip64"
  | .truncated => "Truncated"
  | .damaged message => s!"Damaged({quoted message})"
  | .unsupported message => s!"Unsupported({quoted message})"
  | .source error => s!"Source({error.debug quoted})"

def Zip.ZipEntry.row (entry : Zip.ZipEntry) : String :=
  s!"{entry.name}\tmethod={entry.method}\tcompressed={entry.compressedSize}" ++
    s!"\tuncompressed={entry.uncompressedSize}\toffset={entry.dataOffset}"

def listingReport (entries : List Zip.ZipEntry) : String :=
  let report := s!"{entries.length} entries"
  let report := (entries.take 200).foldl (fun report entry => report ++ "\n" ++ entry.row) report
  if entries.length > 200 then report ++ s!"\n… {entries.length - 200} more entries" else report

def errorReport (error : Zip.ZipError) : String := s!"error: {error.debug quoted}"

def zipReport : Except Zip.ZipError (List Zip.ZipEntry) → String
  | .ok entries => listingReport entries
  | .error error => errorReport quoted error

variable {J : Type} (newString : String → Option J)

def listZip (B : Build) (fd : Int32) (size : Int64) (device : Device) : Outcome (Option J) := do
  if size < 0 then return none
  else
    match FdSource.new B fd size.toUInt64 device with
    | .error _ => return none
    | .ok source =>
      match ← (Zip.list (S := FdSource B) B).eval source with
      | .error error => return newString (errorReport quoted error)
      | .ok entries => return newString (listingReport entries)

end Entry

/-! ### The lines of a report -/

/-- What a report says of an entry. -/
structure Shown where
  name : String
  method : UInt16
  compressedSize : UInt64
  uncompressedSize : UInt64
  dataOffset : UInt64
deriving DecidableEq, Repr

def Zip.ZipEntry.shown (entry : Zip.ZipEntry) : Shown :=
  ⟨entry.name, entry.method, entry.compressedSize, entry.uncompressedSize, entry.dataOffset⟩

def Zip.ZipEntry.OneLine (entry : Zip.ZipEntry) : Prop := '\n' ∉ entry.name.toList

instance (entry : Zip.ZipEntry) : Decidable entry.OneLine :=
  inferInstanceAs (Decidable (_ ∉ entry.name.toList))

def moreLines (count : Nat) : List String :=
  if count > 200 then [s!"… {count - 200} more entries"] else []

def reportLines (entries : List Zip.ZipEntry) : List String :=
  s!"{entries.length} entries" ::
    ((entries.take 200).map Zip.ZipEntry.row ++ moreLines entries.length)

def rowField (label : String) (n : Nat) : List Char := label.toList ++ n.repr.toList

theorem notMem_rowField {label : String} {c : Char} (hdigit : c.isDigit = false)
    (hlabel : c ∉ label.toList) (n : Nat) : c ∉ rowField label n := by
  rw [rowField, List.mem_append]
  rintro (hc | hc)
  · exact hlabel hc
  · exact Text.notMem_repr hdigit n hc

theorem rowField_injective {label : String} {m n : Nat} (h : rowField label m = rowField label n) :
    m = n := Text.repr_injective (String.toList_injective (List.append_cancel_left h))

namespace Zip.ZipEntry

def numbers (entry : ZipEntry) : List (List Char) :=
  [rowField "method=" entry.method.toNat, rowField "compressed=" entry.compressedSize.toNat,
    rowField "uncompressed=" entry.uncompressedSize.toNat,
    rowField "offset=" entry.dataOffset.toNat]

theorem toList_row (entry : ZipEntry) :
    entry.row.toList = entry.name.toList ++ entry.numbers.flatMap ('\t' :: ·) := by
  have hmethod : toString entry.method = entry.method.toNat.repr := rfl
  have hsize : ∀ n : UInt64, toString n = n.toNat.repr := fun _ => rfl
  simp only [row, numbers, rowField, hmethod, hsize, String.toList_append, List.flatMap_cons,
    List.flatMap_nil, List.append_assoc, List.append_nil]
  rfl

theorem notMem_numbers (entry : ZipEntry) {c : Char} (hc : c = '\t' ∨ c = '\n') :
    ∀ number ∈ entry.numbers, c ∉ number := by
  have hfield : ∀ label ∈ ["method=", "compressed=", "uncompressed=", "offset="], ∀ n,
      c ∉ rowField label n := by
    intro label hlabel n
    rcases hc with rfl | rfl
    · exact notMem_rowField (by decide) (by revert label; decide) n
    · exact notMem_rowField (by decide) (by revert label; decide) n
  intro number hnumber
  simp only [numbers, List.mem_cons, List.not_mem_nil, or_false] at hnumber
  rcases hnumber with rfl | rfl | rfl | rfl
  · exact hfield _ (by decide) _
  · exact hfield _ (by decide) _
  · exact hfield _ (by decide) _
  · exact hfield _ (by decide) _

/-- A row denotes what it shows, whatever is in the name. -/
theorem shown_of_row {entry entry' : ZipEntry} (h : entry.row = entry'.row) :
    entry.shown = entry'.shown := by
  have hsplit : ∀ e : ZipEntry,
      e.row.toList.splitOn '\t' = e.name.toList.splitOn '\t' ++ e.numbers := by
    intro e
    rw [toList_row, Text.splitOn_append_rows (e.notMem_numbers (Or.inl rfl))]
  have hlists := congrArg (fun text => text.toList.splitOn '\t') h
  simp only [hsplit] at hlists
  obtain ⟨hname, hnumbers⟩ := List.append_inj' hlists rfl
  simp only [numbers, List.cons.injEq, and_true] at hnumbers
  obtain ⟨hmethod, hcompressed, huncompressed, hoffset⟩ := hnumbers
  simp only [shown, String.toList_injective (Text.splitOn_injective hname),
    UInt16.toNat_inj.mp (rowField_injective hmethod),
    UInt64.toNat_inj.mp (rowField_injective hcompressed),
    UInt64.toNat_inj.mp (rowField_injective huncompressed),
    UInt64.toNat_inj.mp (rowField_injective hoffset)]

theorem OneLine.row {entry : ZipEntry} (h : entry.OneLine) : '\n' ∉ entry.row.toList := by
  rw [toList_row, List.mem_append]
  rintro (hname | hnumbers)
  · exact h hname
  · obtain ⟨number, hnumber, hmem⟩ := List.mem_flatMap.mp hnumbers
    rcases List.mem_cons.mp hmem with htab | hmem
    · exact absurd htab (by decide)
    · exact entry.notMem_numbers (Or.inr rfl) number hnumber hmem

end Zip.ZipEntry

theorem toList_foldl_rows (rows : List Zip.ZipEntry) (report : String) :
    (rows.foldl (fun report entry => report ++ "\n" ++ entry.row) report).toList =
      report.toList ++ (rows.map fun entry => entry.row.toList).flatMap ('\n' :: ·) := by
  induction rows generalizing report with
  | nil => exact (List.append_nil _).symm
  | cons row rows ih =>
    rw [List.foldl_cons, ih, String.toList_append, String.toList_append, List.append_assoc,
      List.append_assoc]
    rfl

theorem toList_listingReport (entries : List Zip.ZipEntry) :
    (listingReport entries).toList = s!"{entries.length} entries".toList ++
      (((entries.take 200).map fun entry => entry.row.toList) ++
        (moreLines entries.length).map String.toList).flatMap ('\n' :: ·) := by
  rw [listingReport, moreLines, List.flatMap_append, ← List.append_assoc, ← toList_foldl_rows]
  split
  · simp only [String.toList_append, List.map_cons, List.map_nil, List.flatMap_cons,
      List.flatMap_nil, List.append_nil]
    rfl
  · exact (List.append_nil _).symm

theorem notMem_count {before after : String} (hbefore : '\n' ∉ before.toList)
    (hafter : '\n' ∉ after.toList) (n : Nat) : '\n' ∉ (before ++ toString n ++ after).toList := by
  have hnumber : '\n' ∉ (toString n).toList := Text.notMem_repr (by decide) n
  simp only [String.toList_append, List.mem_append, hbefore, hnumber, hafter, or_self,
    not_false_eq_true]

/-- The lines of a report: the count, a row for each of the first entries, and how
    many there are besides. -/
theorem splitOn_listingReport {entries : List Zip.ZipEntry}
    (hentries : ∀ entry ∈ entries.take 200, entry.OneLine) :
    (listingReport entries).toList.splitOn '\n' = (reportLines entries).map String.toList := by
  have hempty : '\n' ∉ "".toList := by decide
  have hcount : '\n' ∉ s!"{entries.length} entries".toList :=
    notMem_count hempty (by decide) entries.length
  have hmore : ∀ line ∈ (moreLines entries.length).map String.toList, '\n' ∉ line := by
    unfold moreLines
    split
    · simpa using notMem_count (by decide) (by decide) (entries.length - 200)
    · simp
  rw [toList_listingReport, Text.splitOn_append_rows, List.splitOn_eq_singleton hcount]
  · simp [reportLines, Function.comp_def]
  · intro line hline
    rcases List.mem_append.mp hline with hrow | hline
    · obtain ⟨entry, hentry, rfl⟩ := List.mem_map.mp hrow
      exact (hentries entry hentry).row
    · exact hmore line hline

/-! ### What a report denotes -/

def Shown.row (s : Shown) : String :=
  Zip.ZipEntry.row ⟨s.name, s.method, 0, s.compressedSize, s.uncompressedSize, s.dataOffset⟩

theorem Shown.row_injective : Function.Injective Shown.row :=
  fun _ _ h => Zip.ZipEntry.shown_of_row h

theorem map_row_eq (entries : List Zip.ZipEntry) :
    entries.map Zip.ZipEntry.row = (entries.map Zip.ZipEntry.shown).map Shown.row := by
  rw [List.map_map]
  rfl

theorem count_injective {m n : Nat} (h : s!"{m} entries" = s!"{n} entries") : m = n := by
  have hlists := congrArg String.toList h
  simp only [String.toList_append] at hlists
  exact Text.repr_injective (String.toList_injective (List.append_cancel_right hlists))

theorem listingReport_ne_errorReport (quoted : String → String) (entries : List Zip.ZipEntry)
    (error : Zip.ZipError) : listingReport entries ≠ errorReport quoted error := by
  intro h
  have hdigits : ∃ rest, (listingReport entries).toList =
      Nat.toDigits 10 entries.length ++ rest := by
    have hcount : s!"{entries.length} entries".toList =
        Nat.toDigits 10 entries.length ++ " entries".toList := by
      rw [String.toList_append, ← Nat.toList_repr]
      rfl
    rw [toList_listingReport, hcount, List.append_assoc]
    exact ⟨_, rfl⟩
  obtain ⟨rest, hrest⟩ := hdigits
  have herror : (errorReport quoted error).toList =
      'e' :: ("rror: " ++ error.debug quoted).toList := by
    rw [errorReport, String.toList_append, String.toList_append]
    rfl
  cases hcases : Nat.toDigits 10 entries.length with
  | nil => exact Nat.toDigits_ne_nil hcases
  | cons first digits =>
    rw [h, herror, hcases] at hrest
    have hfirst : 'e' ∈ Nat.toDigits 10 entries.length := by
      rw [hcases, (List.cons.inj hrest).1]
      exact List.mem_cons_self
    exact Text.notMem_toDigits (by decide) _ hfirst

/-- **A report denotes its listing.** Two reports of names that go over no line are the
    same exactly if they are of listings of one length whose first 200 entries show the
    same; and no report, whatever the names, is the report of an error. -/
theorem listingReport_eq_iff (quoted : String → String) (entries entries' : List Zip.ZipEntry) :
    ((∀ entry ∈ entries.take 200, entry.OneLine) → (∀ entry ∈ entries'.take 200, entry.OneLine) →
      (listingReport entries = listingReport entries' ↔ entries.length = entries'.length ∧
        (entries.take 200).map Zip.ZipEntry.shown =
          (entries'.take 200).map Zip.ZipEntry.shown)) ∧
    ∀ error, listingReport entries ≠ errorReport quoted error := by
  refine ⟨fun hentries hentries' => ⟨?_, ?_⟩, listingReport_ne_errorReport quoted entries⟩
  · intro h
    have hlines := congrArg (fun report => report.toList.splitOn '\n') h
    simp only [splitOn_listingReport hentries, splitOn_listingReport hentries'] at hlines
    obtain ⟨hcount, hrows⟩ := List.cons.inj
      (List.map_injective_iff.mpr (fun _ _ => String.toList_injective) hlines)
    have hlength := count_injective hcount
    rw [hlength, map_row_eq, map_row_eq] at hrows
    exact ⟨hlength, List.map_injective_iff.mpr Shown.row_injective
      (List.append_cancel_right hrows)⟩
  · rintro ⟨hlength, hshown⟩
    have hrows : (entries.take 200).map (fun entry => entry.row.toList) =
        (entries'.take 200).map (fun entry => entry.row.toList) := by
      have hlists : ∀ rows : List Zip.ZipEntry, rows.map (fun entry => entry.row.toList) =
          (rows.map Zip.ZipEntry.row).map String.toList := by
        intro rows
        rw [List.map_map]
        rfl
      rw [hlists, hlists, map_row_eq, map_row_eq, hshown]
    apply String.toList_injective
    rw [toList_listingReport, toList_listingReport, hlength, hrows]

/-- Two entries of an empty file, and one whose name has a tab in it. -/
theorem listingReport_eq_iff_tab :
    let stored : Zip.ZipEntry := ⟨"a", 0, 0, 0, 0, 31⟩
    let tabbed : Zip.ZipEntry := ⟨"a\tmethod=0", 0, 0, 0, 0, 31⟩
    listingReport [stored] ≠ listingReport [tabbed] := by
  intro stored tabbed h
  have hline : ∀ entry ∈ [stored].take 200, entry.OneLine := by decide
  have hline' : ∀ entry ∈ [tabbed].take 200, entry.OneLine := by decide
  have hiff := (listingReport_eq_iff id [stored] [tabbed]).1 hline hline'
  exact absurd (hiff.mp h).2 (by decide)

end ImgTools
