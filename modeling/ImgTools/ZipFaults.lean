import ImgTools.FdSource
import ImgTools.ZipDialogue
import ImgTools.ZipRoundTrip

/-!
# Listings under faults

A descriptor may be interrupted, transfer less than asked for, or fail. A listing
over it is the listing of the bytes of the file, or it ends in the first call that
failed, with the text of that failure: no schedule makes it list anything else.
-/

namespace ImgTools

open Exec

def Quiet (events : List Event) : Prop := ∀ message, .failed message ∉ events

/-- The failure with `message` is the first one of a schedule. -/
def FirstFailure (schedule : List Event) (message : String) : Prop :=
  ∃ used rest, schedule = used ++ .failed message :: rest ∧ Quiet used

theorem Quiet.nil : Quiet [] := fun _ h => absurd h List.not_mem_nil

theorem Quiet.append {events events' : List Event} (h : Quiet events) (h' : Quiet events') :
    Quiet (events ++ events') := by
  intro message hmem
  rcases List.mem_append.mp hmem with hmem | hmem
  · exact h message hmem
  · exact h' message hmem

theorem FirstFailure.append {used schedule : List Event} (hused : Quiet used) {message : String}
    (h : FirstFailure schedule message) : FirstFailure (used ++ schedule) message := by
  obtain ⟨more, rest, rfl, hmore⟩ := h
  exact ⟨used ++ more, rest, (List.append_assoc _ _ _).symm, hused.append hmore⟩

/-- Events are quiet or have a first failure. -/
theorem quiet_or_firstFailure (events : List Event) :
    Quiet events ∨ ∃ message, FirstFailure events message := by
  induction events with
  | nil => exact Or.inl Quiet.nil
  | cons event events ih =>
    by_cases hfailed : ∃ message, event = .failed message
    · obtain ⟨message, rfl⟩ := hfailed
      exact Or.inr ⟨message, [], events, rfl, Quiet.nil⟩
    · have hevent : Quiet [event] := by
        intro message hmem
        exact hfailed ⟨message, (List.mem_singleton.mp hmem).symm⟩
      rcases ih with hquiet | ⟨message, hfirst⟩
      · exact Or.inl (hevent.append hquiet)
      · exact Or.inr ⟨message, hfirst.append hevent⟩

theorem FirstFailure.mem {schedule : List Event} {message : String}
    (h : FirstFailure schedule message) : .failed message ∈ schedule := by
  obtain ⟨used, rest, rfl, -⟩ := h
  exact List.mem_append_right _ List.mem_cons_self

namespace FdSource

variable {B : Build}

/-- The sources that a listing goes through while no call has failed: those of
    `start` with the first events used, over the bytes of the file. -/
structure Underway (start self : FdSource B) (whole : ContentSource) : Prop where
  content_eq : whole.bytes = start.device.content
  used : ∃ used, Quiet used ∧ start.device.schedule = used ++ self.device.schedule ∧
    self = start.after self.device.schedule

theorem Underway.start (self : FdSource B) : Underway self self ⟨self.device.content⟩ :=
  ⟨rfl, [], Quiet.nil, rfl, rfl⟩

variable {start : FdSource B} (hsize : start.size.toNat = start.device.content.length)
  (hfile : start.device.content.length ≤ B.isizeMax)

include hsize hfile

/-- A read returns the bytes of the file, or the first failure. -/
theorem read_alikeUnless (offset : UInt64) (length : Nat) :
    Dialogue.AlikeUnless (Underway start)
      (fun e => ∃ message, e = .io message ∧ FirstFailure start.device.schedule message)
      (ByteSource.read (S := FdSource B) offset length)
      (ByteSource.read (S := ContentSource) offset length) := by
  rintro self whole ⟨hwhole, used, hused, hschedule, hself⟩
  have hsame : self.size = start.size ∧ self.device.content = start.device.content := by
    rw [hself]
    exact ⟨rfl, rfl⟩
  obtain ⟨hsize', hcontent⟩ := hsame
  have hword : B.isizeMax ≤ 2 ^ (B.usizeBits - 1) := Nat.sub_le _ _
  obtain ⟨⟨result, self'⟩, hrun, now, rest, hnow, hrest, hok, hfailed⟩ :=
    read_spec self offset length (by rw [hsize']; omega) (by rw [hsize']; omega)
  dsimp only at hrest hok hfailed
  rcases quiet_or_firstFailure now with hquiet | ⟨message, hfirst⟩
  · right
    show Outcome.Related _ ((read offset length).run self) _
    rw [hrun, hok hquiet]
    refine .done ⟨congrArg Except.ok ?_, hwhole, used ++ now, hused.append hquiet, ?_, ?_⟩
    · rw [hwhole, hcontent]
      refine List.take_eq_take_iff.mpr ?_
      rw [List.length_drop, hsize']
      omega
    · rw [hschedule, hnow, hrest, List.append_assoc]
      rfl
    · rw [hrest, hself]
      rfl
  · left
    refine ⟨.io message, self', ?_, message, rfl, ?_⟩
    · show (read offset length).run self = _
      rw [hrun, hfailed message hfirst.mem]
    · obtain ⟨before, behind, hsplit, hbefore⟩ := hfirst
      rw [hschedule, hnow, hsplit, List.append_assoc]
      exact FirstFailure.append hused ⟨before, behind ++ rest, rfl, hbefore⟩

/-- A descriptor answers the reader of an archive as the bytes of the file do. -/
theorem reply_alikeUnless (q : Zip.Question) :
    Dialogue.AlikeUnless (Underway start)
      (fun e => ∃ message, e = .source (.io message) ∧
        FirstFailure start.device.schedule message)
      (Zip.reply (S := FdSource B) q) (Zip.reply (S := ContentSource) q) := by
  cases q with
  | size =>
    rintro self whole ⟨hwhole, used, hused, hschedule, hself⟩
    refine Or.inr (.done ⟨congrArg Except.ok ?_, hwhole, used, hused, hschedule, hself⟩)
    show self.size = UInt64.ofNat whole.bytes.length
    rw [hself, hwhole, ← hsize]
    exact (UInt64.ofNat_toNat).symm
  | read offset length =>
    intro self whole hunderway
    rcases read_alikeUnless hsize hfile offset length self whole hunderway with
      ⟨e, self', hrun, message, rfl, hfirst⟩ | hrelated
    · refine Or.inl ⟨.source (.io message), self', ?_, message, rfl, hfirst⟩
      show (Zip.readSource offset length).run self = _
      rw [Zip.readSource, Reading.convert_run, hrun]
      rfl
    · refine Or.inr ?_
      show Outcome.Related _ ((Zip.readSource offset length).run self)
        ((Zip.readSource offset length).run whole)
      rw [Zip.readSource, Zip.readSource, Reading.convert_run, Reading.convert_run]
      refine hrelated.bind ?_
      rintro ⟨result, s'⟩ ⟨result', t'⟩ ⟨heq, hst'⟩
      exact .done ⟨congrArg (Except.mapError _) heq, hst'⟩

/-- A listing over a descriptor is that of the bytes of the file, unless a call fails. -/
theorem list_alikeUnless :
    Dialogue.AlikeUnless (Underway start)
      (fun e => ∃ message, e = .source (.io message) ∧
        FirstFailure start.device.schedule message)
      (Zip.list (S := FdSource B) B) (Zip.list (S := ContentSource) B) := by
  obtain ⟨d, hd⟩ := Zip.list_converses B
  rw [show Zip.list B = d.run (Zip.reply (S := FdSource B)) from hd ⟨FdSource B, inferInstance⟩,
    show Zip.list B = d.run (Zip.reply (S := ContentSource)) from hd ⟨ContentSource, inferInstance⟩]
  exact Dialogue.alikeUnless_run (reply_alikeUnless hsize hfile) d

end FdSource

/-- **A listing under any schedule** is the listing of the bytes of the file, or ends in
    the first call that failed. -/
theorem list_under_faults (B : Build) (self : FdSource B)
    (hsize : self.size.toNat = self.device.content.length)
    (hfile : self.device.content.length ≤ B.isizeMax) :
    (Zip.list B).eval self = (Zip.list B).eval (⟨self.device.content⟩ : ContentSource) ∨
      ∃ message, FirstFailure self.device.schedule message ∧
        (Zip.list B).eval self = .done (.error (.source (.io message))) := by
  rcases (FdSource.list_alikeUnless hsize hfile).eval (.start self) with
    heq | ⟨e, ⟨message, rfl, hfirst⟩, hfailed⟩
  · exact Or.inl heq
  · exact Or.inr ⟨message, hfirst, hfailed⟩

/-- A call that is interrupted, and one that transfers five bytes. -/
theorem list_under_faults_sample :
    let device : Device := ⟨Zip.sampleArchive.bytes, [.interrupted, .progress 5]⟩
    (Zip.list (.wide .release)).eval (⟨3, 127, device⟩ : FdSource (.wide .release)) =
      .done (.ok Zip.sampleArchive.listing) := by
  intro device
  have hfile : Zip.sampleArchive.bytes.length ≤ (Build.wide .release).isizeMax := by decide +kernel
  rcases list_under_faults (.wide .release) ⟨3, 127, device⟩ (by decide +kernel) hfile with
    heq | ⟨message, hfirst, -⟩
  · rw [heq]
    exact Zip.eval_archive _ _ (by decide +kernel) Zip.sampleArchive_endIsFound
      (Zip.sampleArchive.fitsMemory_of_length_le hfile)
  · exact absurd hfirst.mem (by simp [device])

end ImgTools
