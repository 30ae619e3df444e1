import ImgTools.SubSource
import ImgTools.ZipRoundTrip
import ImgTools.ZipSimilar

/-!
# Windows refine slices

A window inside a byte string cannot be told apart from the bytes it shows, and
windows compose: a window of a window is the window at the sum of the bases. The
three steps are a congruence (windows of similar parents are similar), the
composition of two windows, and an induction over the nesting that uses both.
-/

namespace ImgTools

open Exec

namespace SubSource

variable {B : Build} {S T : Type}

/-! ### One window -/

theorem onParent_run {ε α : Type} (x : Reading S ε α) (self : SubSource B S) :
    (onParent x).run self =
      x.run self.parent >>= fun (result, parent) =>
        .done (result, { self with parent := parent }) :=
  rfl

theorem wanted_lt (self : SubSource B S) (offset : UInt64) {length bound : Nat}
    (hlength : length < bound) : self.wanted offset length < bound :=
  Nat.lt_of_le_of_lt (Nat.min_le_left _ _) hlength

variable [ByteSource S] [ByteSource T]

/-- The read of a window, as what it asks of the parent. -/
theorem read_run (self : SubSource B S) (offset : UInt64) {length : Nat}
    (hlength : length < 2 ^ B.usizeBits) : (read offset length).run self =
      if self.size.toNat ≤ offset.toNat ∨ length = 0 then .done (.ok [], self)
      else (B.arith 64).add self.offset.toNat offset.toNat >>= fun position =>
        (onParent (ByteSource.read (UInt64.ofNat position) (self.wanted offset length))).run
          self := by
  split
  · next hnothing => exact read_nothing self offset length hnothing
  · next hsome =>
    rw [read_some self offset length hlength (by omega) (by omega), Reading.bind_run,
      Reading.lift_run]
    cases (B.arith 64).add self.offset.toNat offset.toNat with
    | done position => rfl
    | panic reason => rfl
    | spin => rfl

/-! ### Windows of similar parents -/

structure OnParents (R : S → T → Prop) (s : SubSource B S) (t : SubSource B T) : Prop where
  parent : R s.parent t.parent
  offset : s.offset = t.offset
  size : s.size = t.size

theorem similar_onParents {R : S → T → Prop} (h : Similar (2 ^ B.usizeBits) R) :
    Similar (2 ^ B.usizeBits) (OnParents (B := B) R) where
  size_eq _ _ hst := hst.size
  read_alike := by
    rintro offset length hlength ⟨parent, base, size⟩ ⟨parent', base', size'⟩ ⟨hparent, rfl, rfl⟩
    have hread := h.read_alike
    show Outcome.Related _ ((read offset length).run _) ((read offset length).run _)
    rw [read_run _ offset hlength, read_run _ offset hlength]
    dsimp only
    split
    · exact .done ⟨rfl, hparent, rfl, rfl⟩
    · cases (B.arith 64).add base.toNat offset.toNat with
      | panic reason => exact .panic reason
      | spin => exact .spin
      | done position =>
        have hwanted : wanted (⟨parent, base, size⟩ : SubSource B S) offset length <
            2 ^ B.usizeBits := wanted_lt _ offset hlength
        refine (hread (UInt64.ofNat position) _ hwanted parent parent' hparent).bind ?_
        rintro ⟨result, s'⟩ ⟨result', t'⟩ ⟨hresult, hparent'⟩
        exact .done ⟨hresult, hparent', rfl, rfl⟩

/-! ### A window of a window -/

/-- A window inside a window, and the window of the parent at the sum of the bases. -/
structure Flattens (s : SubSource B (SubSource B S)) (t : SubSource B S) : Prop where
  parent : s.parent.parent = t.parent
  base : t.offset.toNat = s.parent.offset.toNat + s.offset.toNat
  inside : s.offset.toNat + s.size.toNat ≤ s.parent.size.toNat
  size : s.size = t.size

theorem similar_flattens : Similar (2 ^ B.usizeBits) (Flattens (B := B) (S := S)) where
  size_eq _ _ hst := hst.size
  read_alike := by
    rintro offset length hlength ⟨⟨parent, outer, whole⟩, inner, size⟩ ⟨parent', base, size'⟩
      ⟨rfl, hbase, hinside, rfl⟩
    dsimp only at hbase hinside
    have hwhole := whole.toNat_lt
    show Outcome.Related _ ((read offset length).run _) ((read offset length).run _)
    rw [read_run _ offset hlength, read_run _ offset hlength]
    dsimp only
    split
    · exact .done ⟨rfl, rfl, hbase, hinside, rfl⟩
    · next hsome =>
      have hadd : (B.arith 64).add inner.toNat offset.toNat = .done (inner.toNat + offset.toNat) :=
        Arith.add_of_fits (Build.arith_fits.mpr (by omega))
      have hposition : (UInt64.ofNat (inner.toNat + offset.toNat)).toNat =
          inner.toNat + offset.toNat :=
        UInt64.toNat_ofNat_of_lt' (show inner.toNat + offset.toNat < 2 ^ 64 by omega)
      have hclamp : min (min length (size.toNat - offset.toNat))
          (whole.toNat - (inner.toNat + offset.toNat)) =
            min length (size.toNat - offset.toNat) := by
        omega
      have hsum : outer.toNat + (inner.toNat + offset.toNat) = base.toNat + offset.toNat := by
        omega
      rw [hadd, Outcome.done_bind, onParent_run]
      show Outcome.Related _ ((read _ _).run _ >>= _) _
      rw [read_run _ _ (wanted_lt _ offset hlength)]
      simp only [wanted, hposition, hclamp, Arith.add, hsum]
      rw [if_neg (by omega)]
      cases (B.arith 64).word (base.toNat + offset.toNat) with
      | panic reason => exact .panic reason
      | spin => exact .spin
      | done position =>
        simp only [Outcome.done_bind, onParent_run]
        cases (ByteSource.read (UInt64.ofNat position)
            (min length (size.toNat - offset.toNat))).run parent with
        | panic reason => exact .panic reason
        | spin => exact .spin
        | done p => exact .done ⟨rfl, rfl, hbase, hinside, rfl⟩

end SubSource

/-! ### A window inside a byte string -/

namespace MemorySource

variable {B : Build}

/-- `B[offset..offset + size]`, as a source of its own. -/
def slice (self : MemorySource B) (offset size : UInt64) : MemorySource B where
  bytes := (self.bytes.drop offset.toNat).take size.toNat
  fits := by
    have hfits := self.fits
    rw [List.length_take, List.length_drop]
    omega

end MemorySource

section Slice

variable {profile : Profile} (self : MemorySource (.wide profile)) (offset size : UInt64)
  (hinside : offset.toNat + size.toNat ≤ self.bytes.length)

include hinside

theorem SubSource.returns_read (position : UInt64) {length : Nat} (hlength : length < 2 ^ 64) :
    Reading.Returns (· = SubSource.new (.wide profile) self offset size)
      (ByteSource.read position length)
      (.ok (((self.slice offset size).bytes.drop position.toNat).take length)) := by
  intro window hself
  rw [hself]
  have hmax := self.fits
  rw [Build.isizeMax_wide] at hmax
  show ∃ _ _, (read position length).run _ = _ ∧ _
  rw [read_run _ position hlength]
  split
  · next hnothing =>
    refine ⟨_, _, rfl, rfl, ?_⟩
    have hnil : ((self.slice offset size).bytes.drop position.toNat).take length = [] := by
      rcases hnothing with hpast | hzero
      · have hbytes : (self.slice offset size).bytes.length ≤ position.toNat := by
          refine Nat.le_trans ?_ hpast
          exact List.length_take_le _ _
        rw [List.drop_eq_nil_of_le hbytes, List.take_nil]
      · rw [hzero, List.take_zero]
    rw [hnil]
  · next hsome =>
    have hwindow : (SubSource.new (.wide profile) self offset size).offset = offset := rfl
    have hwhole : (SubSource.new (.wide profile) self offset size).size = size := rfl
    rw [hwhole] at hsome
    have hsum : offset.toNat + position.toNat < 2 ^ 64 := by omega
    have hadd : ((Build.wide profile).arith 64).add offset.toNat position.toNat =
        .done (offset.toNat + position.toNat) := Arith.add_of_fits (Build.arith_fits.mpr hsum)
    have hbase : (UInt64.ofNat (offset.toNat + position.toNat)).toNat =
        offset.toNat + position.toNat := UInt64.toNat_ofNat_of_lt' hsum
    obtain ⟨_, parent, hread, hparent, rfl⟩ := self.returns_read
      (UInt64.ofNat (offset.toNat + position.toNat))
      ((SubSource.new (.wide profile) self offset size).wanted position length) self rfl
    rw [hwindow, hadd, Outcome.done_bind, onParent_run]
    show ∃ _ _, (ByteSource.read _ _).run self >>= _ = _ ∧ _
    rw [hread, hparent]
    refine ⟨_, _, rfl, rfl, ?_⟩
    rw [hbase, MemorySource.slice, List.drop_take, List.drop_drop, List.take_take, wanted, hwhole]

theorem SubSource.similar_slice : Similar (2 ^ 64)
    (fun s t =>
      s = SubSource.new (.wide profile) self offset size ∧ t = self.slice offset size) where
  size_eq := by
    rintro s t ⟨hs, ht⟩
    rw [hs, ht]
    show size = UInt64.ofNat (self.slice offset size).bytes.length
    have hlength : (self.slice offset size).bytes.length = size.toNat := by
      rw [MemorySource.slice, List.length_take, List.length_drop]
      omega
    rw [hlength, UInt64.ofNat_toNat]
  read_alike position length hlength :=
    .of_returns (SubSource.returns_read self offset size hinside position hlength)
      ((self.slice offset size).returns_read position length)

end Slice

/-! ### Nested windows -/

structure Window where
  offset : UInt64
  size : UInt64
deriving DecidableEq

/-- The type of a source behind nested windows, the innermost first. -/
def Nested (B : Build) (S : Type) : List Window → Type
  | [] => S
  | _ :: windows => SubSource B (Nested B S windows)

instance Nested.byteSource (B : Build) (S : Type) [ByteSource S] :
    (windows : List Window) → ByteSource (Nested B S windows)
  | [] => inferInstanceAs (ByteSource S)
  | _ :: windows =>
    have := Nested.byteSource B S windows
    inferInstanceAs (ByteSource (SubSource B (Nested B S windows)))

def nested (B : Build) {S : Type} (parent : S) : (windows : List Window) → Nested B S windows
  | [] => parent
  | window :: windows => SubSource.new B (nested B parent windows) window.offset window.size

/-- Every window lies in the next one. -/
def Chained (windows : List Window) : Prop :=
  windows.IsChain fun inner outer => inner.offset.toNat + inner.size.toNat ≤ outer.size.toNat

def base (windows : List Window) : Nat := (windows.map fun window => window.offset.toNat).sum

/-- The windows that end in a given outermost one lie where that one does. -/
theorem base_le {inner : Window} {windows : List Window} (hchained : Chained (inner :: windows)) :
    ∀ outermost ∈ (inner :: windows).getLast?,
      base (inner :: windows) + inner.size.toNat ≤
        outermost.offset.toNat + outermost.size.toNat := by
  induction windows generalizing inner with
  | nil =>
    intro outermost hlast
    cases hlast
    exact Nat.le_refl _
  | cons outer windows ih =>
    intro outermost hlast
    obtain ⟨hinside, hrest⟩ := List.isChain_cons_cons.mp hchained
    have hbelow := ih hrest outermost (by rwa [List.getLast?_cons_cons] at hlast)
    have hbase : base (inner :: outer :: windows) = inner.offset.toNat + base (outer :: windows) :=
      List.sum_cons
    omega

section Flat

variable {B : Build} {S : Type} [ByteSource S] (parent : S)

theorem SubSource.bisimilar_flattens {outer inner base : UInt64} {whole size : UInt64}
    (hbase : base.toNat = outer.toNat + inner.toNat)
    (hinside : inner.toNat + size.toNat ≤ whole.toNat) :
    Bisimilar (2 ^ B.usizeBits) (SubSource.new B (SubSource.new B parent outer whole) inner size)
      (SubSource.new B parent base size) :=
  ⟨_, similar_flattens, rfl, hbase, hinside, rfl⟩

theorem SubSource.bisimilar_onParents {T : Type} [ByteSource T] {s : S} {t : T}
    (h : Bisimilar (2 ^ B.usizeBits) s t) (offset size : UInt64) :
    Bisimilar (2 ^ B.usizeBits) (SubSource.new B s offset size)
      (SubSource.new B t offset size) := by
  obtain ⟨R, hR, hst⟩ := h
  exact ⟨_, similar_onParents hR, hst, rfl, rfl⟩

/-- **Windows compose.** Nested windows are one window at the sum of the bases. -/
theorem nested_bisimilar {inner : Window} {windows : List Window}
    (hchained : Chained (inner :: windows)) {offset : UInt64}
    (hoffset : offset.toNat = base (inner :: windows)) :
    Bisimilar (2 ^ B.usizeBits) (nested B parent (inner :: windows))
      (SubSource.new B parent offset inner.size) := by
  induction windows generalizing inner offset with
  | nil =>
    have heq : offset = inner.offset := UInt64.toNat_inj.mp hoffset
    rw [heq]
    exact .refl _
  | cons outer windows ih =>
    obtain ⟨hinside, hrest⟩ := List.isChain_cons_cons.mp hchained
    have hbase : base (inner :: outer :: windows) = inner.offset.toNat + base (outer :: windows) :=
      List.sum_cons
    have hword := offset.toNat_lt
    have houter : (UInt64.ofNat (base (outer :: windows))).toNat = base (outer :: windows) :=
      UInt64.toNat_ofNat_of_lt' (show base (outer :: windows) < 2 ^ 64 by omega)
    have hflat := SubSource.bisimilar_onParents (ih hrest houter) inner.offset inner.size
    exact hflat.trans (SubSource.bisimilar_flattens parent (by omega) hinside)

end Flat

/-- **Windows refine slices.** A window inside a byte string answers as the slice
    does; nested windows answer as one window on the parent, whatever the parent
    is; and a listing over nested windows is the listing over the slice. -/
theorem windows_refine_slices (profile : Profile) :
    (∀ (memory : MemorySource (.wide profile)) (offset size : UInt64),
      offset.toNat + size.toNat ≤ memory.bytes.length →
      SameAnswers (2 ^ 64) (SubSource.new (.wide profile) memory offset size)
        (memory.slice offset size)) ∧
    (∀ (S : Type) [ByteSource S] (parent : S) (inner : Window) (windows : List Window)
      (offset : UInt64), Chained (inner :: windows) → offset.toNat = base (inner :: windows) →
      SameAnswers (2 ^ 64) (nested (.wide profile) parent (inner :: windows))
        (SubSource.new (.wide profile) parent offset inner.size)) ∧
    (∀ (memory : MemorySource (.wide profile)) (inner : Window) (windows : List Window),
      Chained (inner :: windows) →
      (∀ outermost ∈ (inner :: windows).getLast?,
        outermost.offset.toNat + outermost.size.toNat ≤ memory.bytes.length) →
      (Zip.list (.wide profile)).eval (nested (.wide profile) memory (inner :: windows)) =
        (Zip.list (.wide profile)).eval
          (memory.slice (UInt64.ofNat (base (inner :: windows))) inner.size)) := by
  refine ⟨fun memory offset size hinside => ?_,
    fun S _ parent inner windows offset hchained hoffset => ?_,
    fun memory inner windows hchained hwhole => ?_⟩
  · have hslice := SubSource.similar_slice memory offset size hinside
    exact Bisimilar.sameAnswers ⟨_, hslice, rfl, rfl⟩
  · exact (nested_bisimilar parent hchained hoffset).sameAnswers
  · obtain ⟨outermost, houtermost⟩ : ∃ w, w ∈ (inner :: windows).getLast? :=
      ⟨_, List.getLast?_eq_some_getLast (List.cons_ne_nil inner windows)⟩
    have hbelow := base_le hchained outermost houtermost
    have hfits := hwhole outermost houtermost
    have hmax := memory.fits
    rw [Build.isizeMax_wide] at hmax
    have hoffset : (UInt64.ofNat (base (inner :: windows))).toNat = base (inner :: windows) :=
      UInt64.toNat_ofNat_of_lt' (show base (inner :: windows) < 2 ^ 64 by omega)
    have hflat := nested_bisimilar (B := .wide profile) memory hchained hoffset
    have hslice := SubSource.similar_slice memory (UInt64.ofNat (base (inner :: windows)))
      inner.size (by omega)
    exact Zip.list_eq_of_bisimilar _ (hflat.trans ⟨_, hslice, rfl, rfl⟩)

/-- An archive in a window of a window, between other bytes. -/
def enclosed : MemorySource (.wide .debug) :=
  ⟨List.replicate 10 1 ++ Zip.sampleArchive.bytes ++ List.replicate 5 1, by decide +kernel⟩

theorem windows_refine_slices_enclosed :
    SameAnswers (2 ^ 64) (SubSource.new (.wide .debug) enclosed 10 127) (enclosed.slice 10 127) ∧
      SameAnswers (2 ^ 64) (nested (.wide .debug) enclosed [⟨4, 127⟩, ⟨6, 133⟩])
        (SubSource.new (.wide .debug) enclosed 10 127) ∧
      (Zip.list (.wide .debug)).eval (nested (.wide .debug) enclosed [⟨4, 127⟩, ⟨6, 133⟩]) =
        .done (.ok Zip.sampleArchive.listing) := by
  have hchained : Chained [⟨4, 127⟩, ⟨6, 133⟩] :=
    List.isChain_cons_cons.mpr ⟨by decide, .singleton _⟩
  have hlength : enclosed.bytes.length = 142 := by decide +kernel
  have hslice : (Zip.list (.wide .debug)).eval (enclosed.slice 10 127) =
      .done (.ok Zip.sampleArchive.listing) := by decide +kernel
  have hrefine := windows_refine_slices .debug
  have hwhole : ∀ outermost ∈ [Window.mk 4 127, ⟨6, 133⟩].getLast?,
      outermost.offset.toNat + outermost.size.toNat ≤ enclosed.bytes.length := by
    intro outermost h
    cases h
    rw [hlength]
    decide
  exact ⟨hrefine.1 enclosed 10 127 (by rw [hlength]; decide),
    hrefine.2.1 _ _ ⟨4, 127⟩ [⟨6, 133⟩] 10 hchained (by decide),
    (hrefine.2.2 enclosed ⟨4, 127⟩ [⟨6, 133⟩] hchained hwhole).trans hslice⟩

end ImgTools
