import ImgTools.Reading
import ImgTools.Slice
import ImgTools.Word

/-!
# Byte sources

The trait `ByteSource` of `bytesource.rs` and the source over a vector. What a
source is for is said by two contracts against a byte string: a source that
`Serves` a content never returns anything but the bytes asked for, though fewer
or none; a source that `Holds` a content returns all of them and knows its size.
-/

namespace ImgTools

open Exec

/-! ### Builds -/

/-- The width of `usize`. -/
inductive Target where
  | bits32
  | bits64
deriving DecidableEq, Repr

/-- Whether arithmetic overflow panics. -/
inductive Profile where
  | debug
  | release
deriving DecidableEq, Repr

structure Build where
  target : Target
  profile : Profile
deriving DecidableEq, Repr

namespace Build

def usizeBits (B : Build) : Nat :=
  match B.target with
  | .bits32 => 32
  | .bits64 => 64

def isizeMax (B : Build) : Nat := 2 ^ (B.usizeBits - 1) - 1

def arith (B : Build) (bits : Nat) : Arith :=
  match B.profile with
  | .debug => .checked bits
  | .release => .wrapping bits

/-- `usize::try_from(n).ok()`. -/
def usizeFrom (B : Build) (n : UInt64) : Option Nat :=
  if n.toNat < 2 ^ B.usizeBits then some n.toNat else none

abbrev wide (profile : Profile) : Build := ⟨.bits64, profile⟩

theorem isizeMax_wide (profile : Profile) : (wide profile).isizeMax = 2 ^ 63 - 1 := rfl

abbrev narrow (profile : Profile) : Build := ⟨.bits32, profile⟩

theorem isizeMax_narrow (profile : Profile) : (narrow profile).isizeMax = 2 ^ 31 - 1 := rfl

theorem isizeMax_lt (B : Build) : B.isizeMax < 2 ^ B.usizeBits := by
  obtain ⟨_ | _, _ | _⟩ := B <;> decide

theorem usizeBits_le (B : Build) : B.usizeBits ≤ 64 := by
  obtain ⟨_ | _, _ | _⟩ := B <;> decide

theorem usizeBits_ge (B : Build) : 32 ≤ B.usizeBits := by
  obtain ⟨_ | _, _ | _⟩ := B <;> decide

theorem isizeMax_le (B : Build) : B.isizeMax ≤ 2 ^ 63 - 1 :=
  Nat.sub_le_sub_right (Nat.pow_le_pow_right (by decide) (Nat.sub_le_sub_right B.usizeBits_le 1)) 1

theorem usizeFrom_eq_some {B : Build} {n : UInt64} {length : Nat} :
    B.usizeFrom n = some length ↔ n.toNat < 2 ^ B.usizeBits ∧ length = n.toNat := by
  rw [usizeFrom, Option.ite_none_right_eq_some, Option.some.injEq, eq_comm (a := length)]

theorem isizeMax_ge (B : Build) : 2 ^ 31 - 1 ≤ B.isizeMax := by
  obtain ⟨_ | _, _ | _⟩ := B <;> decide

theorem arith_fits {B : Build} {bits n : Nat} : (B.arith bits).Fits n ↔ n < 2 ^ bits := by
  obtain ⟨target, profile⟩ := B
  cases profile <;> exact Iff.rfl

end Build

/-! ### The trait -/

inductive ByteSourceError where
  | outOfRange
  | io (message : String)
deriving DecidableEq, Repr

class ByteSource (S : Type) where
  size : S → UInt64
  read : (offset : UInt64) → (length : Nat) → Reading S ByteSourceError (List UInt8)

section Contracts

variable {S : Type} [ByteSource S]

/-- From the states `P` a source stops normally and returns nothing but bytes of
    `content`: those asked for, or fewer of them from the first on, or an error. -/
def Serves (content : List UInt8) (P : S → Prop) : Prop :=
  ∀ (offset : UInt64) (length : Nat), Reading.Stops P (ByteSource.read offset length)
    fun bytes => bytes <+: (content.drop offset.toNat).take length

/-- In the states `P` a source is a view of all of `content`. A read that starts
    behind the end may be an error, and has no bytes to return. -/
structure Holds (content : List UInt8) (P : S → Prop) : Prop where
  size_eq : ∀ s, P s → (ByteSource.size s).toNat = content.length
  read_eq : ∀ (offset : UInt64) (length : Nat), offset.toNat ≤ content.length →
    Reading.Returns P (ByteSource.read offset length)
      (.ok ((content.drop offset.toNat).take length))
  read_past : ∀ (offset : UInt64) (length : Nat), content.length < offset.toNat →
    Reading.Stops P (ByteSource.read offset length) fun bytes => bytes = []

/-- From the states `P` a read of a length that is a `usize` stops normally, and
    what it returns is a vector. -/
def Responds (P : S → Prop) : Prop :=
  ∀ (offset : UInt64) (length : Nat), length < 2 ^ 64 →
    Reading.Stops P (ByteSource.read offset length) fun bytes => bytes.length < 2 ^ 64

theorem Serves.responds {content : List UInt8} {P : S → Prop} (h : Serves content P) :
    Responds P := by
  intro offset length hlength
  refine (h offset length).mono fun bytes hbytes => ?_
  have hle := hbytes.length_le.trans (List.length_take_le _ _)
  omega

theorem Holds.serves {content : List UInt8} {P : S → Prop} (h : Holds content P) :
    Serves content P := by
  intro offset length
  by_cases hle : offset.toNat ≤ content.length
  · refine (Reading.Stops.of_returns (h.read_eq offset length hle)).mono ?_
    rintro _ rfl
    exact List.prefix_rfl
  · refine (h.read_past offset length (by omega)).mono ?_
    rintro _ rfl
    exact List.nil_prefix

end Contracts

/-! ### The source that is its content -/

structure ContentSource where
  bytes : List UInt8
deriving DecidableEq

namespace ContentSource

instance : ByteSource ContentSource where
  size self := UInt64.ofNat self.bytes.length
  read offset length := ⟨fun self =>
    .done (.ok ((self.bytes.drop offset.toNat).take length), self)⟩

theorem serves (self : ContentSource) : Serves self.bytes (· = self) := by
  intro offset length s hs
  rw [hs]
  exact ⟨_, self, rfl, rfl, by intro bytes h; cases h; exact List.prefix_rfl⟩

theorem holds (self : ContentSource) (h : self.bytes.length < 2 ^ 64) :
    Holds self.bytes (· = self) where
  size_eq := by
    intro s hs
    rw [hs]
    exact UInt64.toNat_ofNat_of_lt' h
  read_eq := by
    intro offset length _ s hs
    rw [hs]
    exact ⟨_, self, rfl, rfl, rfl⟩
  read_past := by
    intro offset length hlt s hs
    rw [hs]
    refine ⟨_, self, rfl, rfl, ?_⟩
    intro bytes h
    cases h
    rw [List.drop_eq_nil_of_le (Nat.le_of_lt hlt), List.take_nil]

end ContentSource

/-! ### The source over a vector -/

/-- A vector of bytes is never larger than an allocation may be. -/
structure MemorySource (B : Build) where
  bytes : List UInt8
  fits : bytes.length ≤ B.isizeMax
deriving DecidableEq

namespace MemorySource

variable {B : Build}

def read (offset : UInt64) (length : Nat) :
    Reading (MemorySource B) ByteSourceError (List UInt8) := do
  let self ← Reading.ask id
  match B.usizeFrom offset with
  | none => Reading.fail .outOfRange
  | some start =>
    if self.bytes.length < start then return []
    else
      let stop := min (saturatingAdd B.usizeBits start length) self.bytes.length
      let bytes ← (slice self.bytes start stop : Outcome _)
      return bytes

instance : ByteSource (MemorySource B) where
  size self := UInt64.ofNat self.bytes.length
  read := read

theorem read_of_le (self : MemorySource B) (offset : UInt64) (length : Nat)
    (h : offset.toNat ≤ self.bytes.length) :
    (read offset length).run self =
      .done (.ok ((self.bytes.drop offset.toNat).take length), self) := by
  have hmax := B.isizeMax_lt
  have hfits := self.fits
  have hstart : B.usizeFrom offset = some offset.toNat := if_pos (by omega)
  have hstop : min (saturatingAdd B.usizeBits offset.toNat length) self.bytes.length =
      min (offset.toNat + length) self.bytes.length := by
    unfold saturatingAdd
    omega
  have hslice : slice self.bytes offset.toNat
      (min (saturatingAdd B.usizeBits offset.toNat length) self.bytes.length) =
      .done ((self.bytes.drop offset.toNat).take length) := by
    rw [hstop, slice_of_le (by omega) (by omega), List.drop_take]
    refine congrArg Outcome.done (List.take_eq_take_iff.mpr ?_)
    rw [List.length_drop]
    omega
  rw [read, Reading.bind_of_ok (Reading.ask_run id self)]
  simp only [id, hstart, if_neg (Nat.not_lt.mpr h), hslice]
  rfl

theorem read_of_lt (self : MemorySource B) (offset : UInt64) (length : Nat)
    (h : self.bytes.length < offset.toNat) :
    (read offset length).run self = .done (.ok [], self) ∨
      (read offset length).run self = .done (.error .outOfRange, self) := by
  rw [read, Reading.bind_of_ok (Reading.ask_run id self)]
  by_cases hstart : offset.toNat < 2 ^ B.usizeBits
  · simp only [Build.usizeFrom, if_pos hstart, id, if_pos h]
    exact Or.inl rfl
  · simp only [Build.usizeFrom, if_neg hstart]
    exact Or.inr rfl

/-- **A memory source holds its bytes.** -/
theorem holds (self : MemorySource B) : Holds self.bytes (· = self) where
  size_eq := by
    intro s hs
    have hlt : self.bytes.length < 2 ^ 64 :=
      Nat.lt_of_le_of_lt (self.fits.trans B.isizeMax_le) (by decide)
    rw [hs]
    exact UInt64.toNat_ofNat_of_lt' hlt
  read_eq := by
    intro offset length hle s hs
    rw [hs]
    exact ⟨_, self, read_of_le self offset length hle, rfl, rfl⟩
  read_past := by
    intro offset length hlt s hs
    rw [hs]
    rcases read_of_lt self offset length hlt with hrun | hrun
    · exact ⟨.ok [], self, hrun, rfl, by intro bytes h; cases h; rfl⟩
    · exact ⟨.error .outOfRange, self, hrun, rfl, by intro bytes h; cases h⟩

/-- With a 64-bit `usize` every offset is a position. -/
theorem returns_read {profile : Profile} (self : MemorySource (.wide profile)) (offset : UInt64)
    (length : Nat) : Reading.Returns (· = self) (ByteSource.read offset length)
      (.ok ((self.bytes.drop offset.toNat).take length)) := by
  intro s hs
  rw [hs]
  by_cases hle : offset.toNat ≤ self.bytes.length
  · exact ⟨_, self, read_of_le self offset length hle, rfl, rfl⟩
  · have hstart : (Build.wide profile).usizeFrom offset = some offset.toNat :=
      if_pos offset.toNat_lt
    refine ⟨.ok [], self, ?_, rfl, ?_⟩
    · show (read offset length).run self = _
      rw [read, Reading.bind_of_ok (Reading.ask_run id self)]
      simp only [id, hstart, if_pos (Nat.lt_of_not_le hle)]
      rfl
    · rw [List.drop_eq_nil_of_le (by omega), List.take_nil]

end MemorySource

end ImgTools
