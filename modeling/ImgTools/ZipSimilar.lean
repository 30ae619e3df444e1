import ImgTools.Similar
import ImgTools.Zip

/-!
# Listings of sources that cannot be told apart

The reader of a ZIP archive observes its source by the size and by reads. On
similar sources every part of it runs alike, and a listing is the same listing.
-/

namespace ImgTools.Zip

open Exec

section Sources

variable {S T : Type} [ByteSource S] [ByteSource T] {bound : Nat} {R : S → T → Prop}

theorem readSource_alike (h : Similar bound R) (offset : UInt64) {length : Nat}
    (hlength : length < bound) :
    Reading.Alike R (readSource (S := S) offset length) (readSource (S := T) offset length) :=
  .convert _ (h.read_alike offset length hlength)

theorem window_lt (B : Build) : END_RECORD_WINDOW < 2 ^ B.usizeBits := by
  obtain ⟨_ | _, _ | _⟩ := B <;> decide

theorem usizeFrom_lt {B : Build} {n : UInt64} {length : Nat} (h : B.usizeFrom n = some length) :
    length < 2 ^ B.usizeBits := by
  obtain ⟨hlt, rfl⟩ := Build.usizeFrom_eq_some.mp h
  exact hlt

section Large

variable (h : Similar bound R) (hbound : END_RECORD_WINDOW < bound)

include h hbound

theorem zip64End_alike (tail : List UInt8) (locator : Nat) :
    Reading.Alike R (zip64End (S := S) tail locator) (zip64End (S := T) tail locator) := by
  have hsmall : 56 < bound := Nat.lt_trans (by decide) hbound
  refine .bind (.except _) fun recordOffset => ?_
  refine .bind (readSource_alike h recordOffset hsmall) fun record64 => ?_
  exact .except _

theorem endAt_alike (tail : List UInt8) (eocd : Nat) :
    Reading.Alike R (endAt (S := S) tail eocd) (endAt (S := T) tail eocd) := by
  refine .bind (.except _) fun record => ?_
  cases checkedSub eocd 20 with
  | none => exact .pure record
  | some locator =>
    dsimp only
    split
    · exact zip64End_alike h hbound tail locator
    · split
      · exact .fail _
      · exact .pure record

theorem readEnd_alike : Reading.Alike R (readEnd (S := S)) (readEnd (S := T)) := by
  refine .bind (.ask h.size_eq) fun size => ?_
  split
  · exact .fail _
  · have hwindow : min END_RECORD_WINDOW size.toNat < bound :=
      Nat.lt_of_le_of_lt (Nat.min_le_left _ _) hbound
    refine .bind (readSource_alike h _ hwindow) fun tail => ?_
    cases findEocd tail with
    | none => exact .fail _
    | some eocd => exact endAt_alike h hbound tail eocd

theorem dataOffset_alike (name : String) (localOffset : UInt64) :
    Reading.Alike R (dataOffset (S := S) name localOffset)
      (dataOffset (S := T) name localOffset) := by
  have hsmall : 30 < bound := Nat.lt_trans (by decide) hbound
  refine .bind (readSource_alike h localOffset hsmall) fun header => ?_
  split
  · exact .fail _
  · refine .bind (.except _) fun localNameLen => ?_
    refine .bind (.except _) fun localExtraLen => ?_
    refine .bind (.except _) fun start => ?_
    exact .bind (.except _) fun lengths => .except _

/-- The walks of two builds that read the records of the directory alike. -/
theorem walk_alike {B B' : Build} {central : List UInt8} (Cursor : Nat → Prop)
    (hrecord : ∀ index cursor, Cursor cursor →
      centralRecord B central index cursor = centralRecord B' central index cursor)
    (hnext : ∀ index cursor record, Cursor cursor →
      centralRecord B central index cursor = Fallible.ok record → Cursor record.next)
    (count index cursor : Nat) (hcursor : Cursor cursor) :
    Reading.Alike R (walk (S := S) B central count index cursor)
      (walk (S := T) B' central count index cursor) := by
  induction count generalizing index cursor with
  | zero => exact .pure []
  | succ count ih =>
    unfold walk
    rw [← hrecord index cursor hcursor]
    refine .bind_lift fun record hok => ?_
    refine .bind (dataOffset_alike h hbound _ _) fun dataOffset => ?_
    have hcursor' := hnext index cursor record hcursor hok
    exact .bind (ih (index + 1) record.next hcursor') fun entries => .pure _

end Large

variable (B : Build)

theorem readDirectory_alike (h : Similar (2 ^ B.usizeBits) R) :
    Reading.Alike R (readDirectory (S := S) B) (readDirectory (S := T) B) := by
  refine .bind (readEnd_alike h (window_lt B)) fun record => ?_
  rcases hlength : B.usizeFrom record.centralSize with _ | length
  · exact .fail _
  · dsimp only
    refine .bind (readSource_alike h _ (usizeFrom_lt hlength)) fun central => ?_
    split
    · exact .fail _
    · exact .pure _

/-- **A listing only observes its source.** -/
theorem list_alike (h : Similar (2 ^ B.usizeBits) R) :
    Reading.Alike R (list (S := S) B) (list (S := T) B) := by
  refine .bind (readDirectory_alike B h) fun (record, central) => ?_
  refine .bind (.outcome _) fun _ => ?_
  exact walk_alike h (window_lt B) (fun _ => True) (fun _ _ _ => rfl) (fun _ _ _ _ _ => trivial)
    record.entryCount.toNat 0 0 trivial

theorem list_eq_of_bisimilar {s : S} {t : T} (h : Bisimilar (2 ^ B.usizeBits) s t) :
    (list B).eval s = (list B).eval t := by
  obtain ⟨R, hR, hst⟩ := h
  exact (list_alike B hR).eval_eq hst

end Sources

end ImgTools.Zip
