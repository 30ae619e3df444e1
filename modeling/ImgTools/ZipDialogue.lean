import ImgTools.Dialogue
import ImgTools.Zip

/-!
# A listing is a dialogue

The reader of a ZIP archive asks its source for the size and for ranges, and uses it
in no other way: over every type of source `list` is one dialogue. What the library
proves of dialogues is then true of listings.
-/

namespace ImgTools.Zip

open Exec

inductive Question where
  | size
  | read (offset : UInt64) (length : Nat)

abbrev Reply : Question → Type
  | .size => UInt64
  | .read _ _ => List UInt8

def reply {S : Type} [ByteSource S] : Dialogue.Answer S Reply ZipError
  | .size => .ask ByteSource.size
  | .read offset length => readSource offset length

abbrev AnySource := (S : Type) × ByteSource S

instance (i : AnySource) : ByteSource i.1 := i.2

/-- Code over any source that is one dialogue with it. -/
abbrev Converses {α : Type} (x : ∀ i : AnySource, Reading i.1 ZipError α) : Prop :=
  Dialogue.Converses (R := fun i : AnySource => i.1) (fun i => reply (S := i.1)) x

section Reader

open Dialogue.Converses

theorem size_converses : Converses fun i => .ask (ByteSource.size (S := i.1)) :=
  question (R := fun i : AnySource => i.1) Question.size

theorem readSource_converses (offset : UInt64) (length : Nat) :
    Converses fun i => readSource (S := i.1) offset length :=
  question (R := fun i : AnySource => i.1) (Question.read offset length)

theorem zip64End_converses (tail : List UInt8) (locator : Nat) :
    Converses fun i => zip64End (S := i.1) tail locator := by
  refine bind (except _) fun recordOffset => ?_
  exact bind (readSource_converses recordOffset 56) fun record64 => except _

theorem endAt_converses (tail : List UInt8) (eocd : Nat) :
    Converses fun i => endAt (S := i.1) tail eocd := by
  refine bind (except _) fun record => ?_
  cases checkedSub eocd 20 with
  | none => exact pure record
  | some locator =>
    refine ite (fun _ => zip64End_converses tail locator) fun _ => ?_
    exact ite (fun _ => fail _) fun _ => pure record

theorem readEnd_converses : Converses fun i => readEnd (S := i.1) := by
  refine bind size_converses fun size => ?_
  refine ite (fun _ => fail _) fun _ => ?_
  refine bind (readSource_converses _ _) fun tail => ?_
  cases findEocd tail with
  | none => exact fail _
  | some eocd => exact endAt_converses tail eocd

theorem dataOffset_converses (name : String) (localOffset : UInt64) :
    Converses fun i => dataOffset (S := i.1) name localOffset := by
  refine bind (readSource_converses localOffset 30) fun header => ?_
  refine ite (fun _ => fail _) fun _ => ?_
  refine bind (except _) fun localNameLen => ?_
  refine bind (except _) fun localExtraLen => ?_
  refine bind (except _) fun start => ?_
  exact bind (except _) fun lengths => except _

variable (B : Build)

theorem readDirectory_converses : Converses fun i => readDirectory (S := i.1) B := by
  refine bind readEnd_converses fun record => ?_
  cases B.usizeFrom record.centralSize with
  | none => exact fail _
  | some length =>
    refine bind (readSource_converses record.centralOffset length) fun central => ?_
    exact ite (fun _ => fail _) fun _ => pure _

theorem walk_converses (central : List UInt8) (count index cursor : Nat) :
    Converses fun i => walk (S := i.1) B central count index cursor := by
  induction count generalizing index cursor with
  | zero => exact pure []
  | succ count ih =>
    refine bind (lift _) fun record => ?_
    refine bind (dataOffset_converses _ _) fun dataOffset => ?_
    exact bind (ih (index + 1) record.next) fun entries => pure _

/-- **A listing only talks to its source.** -/
theorem list_converses : Converses fun i => list (S := i.1) B := by
  refine bind (readDirectory_converses B) fun (record, central) => ?_
  exact bind (outcome _) fun _ => walk_converses B central record.entryCount.toNat 0 0

end Reader

end ImgTools.Zip
