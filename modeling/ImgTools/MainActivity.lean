import ImgTools.Inspect
import ImgTools.ListZip
import ImgTools.UriByteSource

/-!
# The activity

What `MainActivity.kt` shows of a document that was chosen: the report of the engine
is taken apart at its separator, the code is read back from it, and a ZIP package is
listed as well. Whatever is thrown on the way becomes a card of its own.
-/

namespace ImgTools

open Exec Kotlin

structure Detection where
  label : String
  detail : String
deriving DecidableEq, Repr

def detectionFor (code : Int32) : Detection :=
  if code = 1 then ⟨"Android boot image", "ANDROID! header"⟩
  else if code = 2 then ⟨"Android vendor_boot image", "VNDRBOOT header"⟩
  else if code = 13 then
    ⟨"Android init_boot image", "v4 boot header with ramdisk and no kernel"⟩
  else if code = 3 then ⟨"Android sparse image", "libsparse header"⟩
  else if code = 4 then ⟨"Android OTA payload", "CrAU header"⟩
  else if code = 5 then ⟨"ZIP package", "PK archive header"⟩
  else if code = 6 then ⟨"ext4 filesystem", "ext4 superblock"⟩
  else if code = 7 then ⟨"EROFS filesystem", "EROFS superblock"⟩
  else if code = 8 then ⟨"F2FS filesystem", "F2FS superblock"⟩
  else if code = 9 then ⟨"Device tree blob", "DTB header"⟩
  else if code = 10 then ⟨"ELF object", "ELF header"⟩
  else if code = 11 then ⟨"Logical partition image", "liblp geometry"⟩
  else if code = 12 then ⟨"CPIO archive", "CPIO header"⟩
  else ⟨"Unknown format", "No supported ImageForge magic matched"⟩

/-! ### The calls of the engine -/

namespace NativeEngine

inductive Entry where
  | version
  | crc32
  | detectFormat
  | inspectHeader
  | inspectFile
  | listZip
deriving DecidableEq, Repr

/-- Whether `lib.rs` exports a function under its name: `no_mangle` stands twice at
    `listZip`, and not at `inspectFile` behind it. -/
def Entry.exported : Entry → Bool
  | .inspectFile => false
  | _ => true

end NativeEngine

/-- The virtual machine between the activity and the engine. -/
structure Machine where
  characters : Characters
  /-- What is thrown at the call of a function that the library does not export. -/
  unsatisfied : NativeEngine.Entry → Throwable
  /-- Whether there is room for a text that the engine returns. -/
  allocates : String → Bool
  /-- `{:?}` of a text in the engine. -/
  quoted : String → String

def Machine.newString (M : Machine) (text : String) : Option String :=
  if M.allocates text then some text else none

def Machine.call (M : Machine) (entry : NativeEngine.Entry) (native : Outcome (Option String)) :
    Fallible Throwable (Option String) :=
  if entry.exported then native else Fallible.fail (M.unsatisfied entry)

/-! ### A document that was chosen -/

/-- What becomes of the steps of an inspection: opening the document, loading the
    library, the system calls of the two functions, and closing the document again. -/
structure Document where
  opened : Except Throwable (Option UriByteSource)
  loaded : Except Throwable Unit
  inspecting : List Event
  listing : List Event
  closed : Except Throwable Unit

section Chosen

variable (M : Machine) (B : Build)

def detectionOf (report : String) (listed : Fallible Throwable (Option String)) :
    Fallible Throwable Detection := do
  let separator := indexOf report '|'
  let code := (toIntOrNull M.characters (substringBefore report '|')).getD 0
  let detail :=
    if separator ≥ 0 then substring report (separator + 1).toNat
    else "Native inspection returned an invalid report."
  let detected := detectionFor code
  if code = 5 then
    let zipReport := (← listed).getD "ZIP listing failed."
    return ⟨detected.label, s!"{detail}\\n{zipReport}"⟩
  else if isBlank M.characters detail then return detected
  else return ⟨detected.label, detail⟩

def inspectSource (source : UriByteSource) (loaded : Except Throwable Unit)
    (inspecting listing : List Event) : Fallible Throwable Detection := do
  -- `NativeEngine` is initialised before the arguments of the call are evaluated
  loaded
  let size ← source.size
  match ← M.call .inspectFile
      (inspectFile M.newString B source.fileDescriptor size ⟨source.content, inspecting⟩) with
  | none => Fallible.fail ⟨some "Native engine could not inspect the selected file."⟩
  | some report =>
    detectionOf M report do
      let size ← source.size
      M.call .listZip
        (listZip M.quoted M.newString B source.fileDescriptor size ⟨source.content, listing⟩)

/-- `use`: what closing throws counts only if the block threw nothing. -/
def inspectDocument (document : Document) : Fallible Throwable Detection := do
  let source ← UriByteSource.new document.opened
  let detected ← inspectSource M B source document.loaded document.inspecting document.listing
  document.closed
  return detected

def couldNotInspect (e : Throwable) : Detection :=
  ⟨"Could not inspect file", e.message.getD "Unknown read error"⟩

def card (document : Document) : Outcome Detection := do
  match ← (inspectDocument M B document).run with
  | .ok detected => return detected
  | .error e => return couldNotInspect e

end Chosen

/-! ### What becomes of every document -/

section Thrown

variable (M : Machine)

/-- What is thrown first on the way to `inspectFile`, which is not there. -/
def thrownBefore (source : UriByteSource) (loaded : Except Throwable Unit) : Throwable :=
  match loaded with
  | .error e => e
  | .ok () =>
    match source.size with
    | .error e => e
    | .ok _ => M.unsatisfied .inspectFile

def thrown (document : Document) : Throwable :=
  match UriByteSource.new document.opened with
  | .error e => e
  | .ok source => thrownBefore M source document.loaded

variable (B : Build)

theorem inspectSource_eq (source : UriByteSource) (loaded : Except Throwable Unit)
    (inspecting listing : List Event) :
    inspectSource M B source loaded inspecting listing =
      Fallible.fail (thrownBefore M source loaded) := by
  unfold inspectSource thrownBefore
  cases loaded with
  | error e => rfl
  | ok u => cases source.size <;> rfl

/-- Every document ends in the card of what was thrown. -/
theorem card_eq (document : Document) :
    card M B document = .done (couldNotInspect (thrown M document)) := by
  unfold card inspectDocument thrown
  cases UriByteSource.new document.opened with
  | error e => rfl
  | ok source =>
    have hblock : (liftM (Except.ok source : Except Throwable UriByteSource) >>= fun source => do
        let detected ← inspectSource M B source document.loaded document.inspecting document.listing
        document.closed
        return detected) = (Fallible.fail (thrownBefore M source document.loaded) :
          Fallible Throwable Detection) := by
      show (inspectSource M B source _ _ _ >>= _) = _
      rw [inspectSource_eq, Fallible.fail_bind]
    rw [hblock]
    rfl

end Thrown

end ImgTools
