import ImgTools.ByteSource

/-!
# Windows on a byte source

`SubSource` of `bytesource.rs`: a window of `size` bytes at `offset` of a parent
source. The constructor checks nothing, and `read` clamps the request to the
window before it adds the base of the window, unchecked. The main result is the
exact condition under which that addition keeps a read inside the window.
-/

namespace ImgTools

open Exec

structure SubSource (B : Build) (S : Type) where
  parent : S
  offset : UInt64
  size : UInt64
deriving DecidableEq

namespace SubSource

variable {B : Build} {S : Type}

def new (B : Build) (parent : S) (offset size : UInt64) : SubSource B S := ⟨parent, offset, size⟩

def onParent {ε α : Type} (x : Reading S ε α) : Reading (SubSource B S) ε α :=
  Reading.focus (fun self => self.parent) (fun self parent => { self with parent := parent }) x

def read [ByteSource S] (offset : UInt64) (length : Nat) :
    Reading (SubSource B S) ByteSourceError (List UInt8) := do
  let self ← Reading.ask id
  let start := min offset.toNat self.size.toNat
  let stop := min (saturatingAdd 64 start length) self.size.toNat
  if stop = start then return []
  else
    let position ← ((B.arith 64).add self.offset.toNat start : Outcome _)
    -- the cast of a `u64` to `usize` keeps its low bits
    onParent (ByteSource.read (UInt64.ofNat position) ((stop - start) % 2 ^ B.usizeBits))

instance [ByteSource S] : ByteSource (SubSource B S) where
  size self := self.size
  read := read

/-! ### What one read asks of the parent -/

/-- A read that has nothing to ask for: it starts behind the window, or is empty. -/
theorem read_nothing [ByteSource S] (self : SubSource B S) (offset : UInt64) (length : Nat)
    (h : self.size.toNat ≤ offset.toNat ∨ length = 0) :
    (read offset length).run self = .done (.ok [], self) := by
  have hword := self.size.toNat_lt
  have hstop : min (saturatingAdd 64 (min offset.toNat self.size.toNat) length) self.size.toNat =
      min offset.toNat self.size.toNat := by
    unfold saturatingAdd
    omega
  rw [read, Reading.bind_of_ok (Reading.ask_run id self)]
  simp only [id, hstop, if_true, Reading.pure_run]

/-- The number of bytes of the window from `offset` on that a read of `length` bytes wants. -/
def wanted (self : SubSource B S) (offset : UInt64) (length : Nat) : Nat :=
  min length (self.size.toNat - offset.toNat)

section Some

variable [ByteSource S] (self : SubSource B S) (offset : UInt64) (length : Nat)
  (hlength : length < 2 ^ B.usizeBits) (hoffset : offset.toNat < self.size.toNat)
  (hpos : 0 < length)

include hlength hoffset hpos

/-- A read that starts in the window adds the base of the window, whatever becomes of the sum. -/
theorem read_some : (read offset length).run self =
    (liftM ((B.arith 64).add self.offset.toNat offset.toNat : Outcome Nat) >>= fun position =>
      onParent (ByteSource.read (UInt64.ofNat position) (self.wanted offset length))).run self := by
  have hword := self.size.toNat_lt
  have hstart : min offset.toNat self.size.toNat = offset.toNat := by omega
  have hstop : min (saturatingAdd 64 offset.toNat length) self.size.toNat =
      offset.toNat + self.wanted offset length := by
    unfold saturatingAdd wanted
    omega
  have hwanted : self.wanted offset length < 2 ^ B.usizeBits := by
    unfold wanted
    omega
  have hsome : offset.toNat + self.wanted offset length ≠ offset.toNat := by
    unfold wanted
    omega
  rw [read, Reading.bind_of_ok (Reading.ask_run id self)]
  simp only [id, hstart, hstop, if_neg hsome, Nat.add_sub_cancel_left, Nat.mod_eq_of_lt hwanted]

theorem read_of_add {position : Nat}
    (hadd : (B.arith 64).add self.offset.toNat offset.toNat = .done position) :
    (read offset length).run self =
      (onParent (ByteSource.read (UInt64.ofNat position) (self.wanted offset length))).run
        self := by
  rw [read_some self offset length hlength hoffset hpos, hadd]
  exact Reading.bind_of_ok (by simp) _

theorem read_of_add_panic {reason : Panic}
    (hadd : (B.arith 64).add self.offset.toNat offset.toNat = .panic reason) :
    (read offset length).run self = .panic reason := by
  rw [read_some self offset length hlength hoffset hpos, hadd]
  exact Reading.bind_of_panic (by simp) _

end Some

/-! ### The window -/

/-- A byte read from a part of the content has a position in that part. -/
theorem mem_of_part {content bytes : List UInt8} {start length : Nat}
    (h : bytes <+: (content.drop start).take length) {byte : UInt8} (hbyte : byte ∈ bytes) :
    ∃ p, start ≤ p ∧ p < start + length ∧ content[p]? = some byte := by
  obtain ⟨i, hi⟩ := List.mem_iff_getElem?.mp (h.subset hbyte)
  rw [List.getElem?_take] at hi
  split at hi
  · next hlt =>
    rw [List.getElem?_drop] at hi
    exact ⟨start + i, by omega, by omega, hi⟩
  · cases hi

/-- For every parent of the window, whatever it serves, the read stops normally
    and returns only bytes of the parent that stand in the window, from `o` on. -/
def StaysInside (B : Build) (offset size o : UInt64) (length : Nat) : Prop :=
  ∀ (S : Type) [ByteSource S] (content : List UInt8) (P : S → Prop), Serves content P →
    ∀ parent, P parent → ∃ result self',
      (ByteSource.read o length).run (SubSource.new B parent offset size) =
        .done (result, self') ∧
      ∀ bytes, result = .ok bytes → ∀ byte ∈ bytes, ∃ p,
        offset.toNat + o.toNat ≤ p ∧ p < offset.toNat + size.toNat ∧ content[p]? = some byte

section Window

variable {B : Build} {offset size o : UInt64} {length : Nat}

theorem staysInside_of_nothing (h : size.toNat ≤ o.toNat ∨ length = 0) :
    StaysInside B offset size o length := by
  intro S _ content P _ parent _
  refine ⟨.ok [], .new B parent offset size, read_nothing _ o length h, ?_⟩
  intro bytes hbytes byte hbyte
  cases hbytes
  cases hbyte

theorem staysInside_of_fits (hlength : length < 2 ^ B.usizeBits) (ho : o.toNat < size.toNat)
    (hpos : 0 < length) (hfits : offset.toNat + o.toNat < 2 ^ 64) :
    StaysInside B offset size o length := by
  intro S _ content P hserves parent hparent
  let self : SubSource B S := .new B parent offset size
  have hadd : (B.arith 64).add offset.toNat o.toNat = .done (offset.toNat + o.toNat) :=
    Arith.add_of_fits (Build.arith_fits.mpr hfits)
  have hbase : (UInt64.ofNat (offset.toNat + o.toNat)).toNat = offset.toNat + o.toNat :=
    UInt64.toNat_ofNat_of_lt' hfits
  have hwanted : self.wanted o length ≤ size.toNat - o.toNat := Nat.min_le_right _ _
  have hask := Reading.Meets.focus (fun self : SubSource B S => self.parent)
    (fun self parent => { self with parent := parent }) (fun _ _ => rfl)
    (hserves (UInt64.ofNat (offset.toNat + o.toNat)) (self.wanted o length))
  obtain ⟨result, self', hrun, _, hresult⟩ := hask self hparent
  refine ⟨result, self', (read_of_add self o length hlength ho hpos hadd).trans hrun, ?_⟩
  intro bytes hbytes byte hbyte
  have hpart := hresult bytes hbytes
  rw [hbase] at hpart
  obtain ⟨p, hle, hlt, hget⟩ := mem_of_part hpart hbyte
  exact ⟨p, hle, by omega, hget⟩

/-- A base that leaves the word: a debug build panics, and a release build reads
    from the start of the parent. -/
theorem not_staysInside_of_overflow (hlength : length < 2 ^ B.usizeBits)
    (ho : o.toNat < size.toNat) (hpos : 0 < length)
    (hover : 2 ^ 64 ≤ offset.toNat + o.toNat) : ¬ StaysInside B offset size o length := by
  intro hstays
  have hoffset := offset.toNat_lt
  have hword := o.toNat_lt
  obtain ⟨k, hk⟩ := Nat.exists_eq_add_of_le hover
  let parent : ContentSource := ⟨List.replicate (k + 1) 0⟩
  let self : SubSource B ContentSource := .new B parent offset size
  obtain ⟨result, self', hrun, hbytes⟩ := hstays ContentSource parent.bytes (· = parent)
    parent.serves parent rfl
  cases hprofile : B.profile with
  | debug =>
    have hadd : (B.arith 64).add offset.toNat o.toNat = .panic .arithmeticOverflow := by
      rw [Build.arith, hprofile]
      exact if_neg (by omega)
    have hpanic := read_of_add_panic self o length hlength ho hpos hadd
    exact absurd (hpanic.symm.trans hrun) (by simp)
  | release =>
    have hadd : (B.arith 64).add offset.toNat o.toNat = .done k := by
      rw [Build.arith, hprofile]
      exact congrArg Outcome.done (by rw [hk, Nat.add_mod_left, Nat.mod_eq_of_lt (by omega)])
    have hbase : (UInt64.ofNat k).toNat = k :=
      UInt64.toNat_ofNat_of_lt' (show k < 2 ^ 64 by omega)
    have hwanted : self.wanted o length = min length (size.toNat - o.toNat) := rfl
    have hmem : (0 : UInt8) ∈
        ((List.replicate (k + 1) 0).drop (UInt64.ofNat k).toNat).take (self.wanted o length) := by
      rw [hbase, List.drop_replicate, List.take_replicate, List.mem_replicate]
      exact ⟨by omega, rfl⟩
    have hrun' := (read_of_add self o length hlength ho hpos hadd).symm.trans hrun
    obtain ⟨rfl, -⟩ := Prod.mk.inj (Outcome.done.inj hrun')
    obtain ⟨p, hle, -, hget⟩ := hbytes _ rfl 0 hmem
    have hlt := (List.getElem?_eq_some_iff.mp hget).1
    rw [List.length_replicate] at hlt
    omega

/-- **Exactly when a window holds.** A read stays inside its window if and only
    if it has nothing to ask for, or the base of the window and the position in
    it have a sum below `2 ^ 64`. -/
theorem staysInside_iff (hlength : length < 2 ^ B.usizeBits) :
    StaysInside B offset size o length ↔
      size.toNat ≤ o.toNat ∨ length = 0 ∨ offset.toNat + o.toNat < 2 ^ 64 := by
  constructor
  · intro hstays
    by_contra hnot
    exact not_staysInside_of_overflow hlength (by omega) (by omega) (by omega) hstays
  · intro h
    by_cases hnothing : size.toNat ≤ o.toNat ∨ length = 0
    · exact staysInside_of_nothing hnothing
    · exact staysInside_of_fits hlength (by omega) (by omega) (by omega)

theorem staysInside_iff_small :
    StaysInside ⟨.bits64, .release⟩ 3 4 0 10 ↔
      (4 : UInt64).toNat ≤ (0 : UInt64).toNat ∨ 10 = 0 ∨
        (3 : UInt64).toNat + (0 : UInt64).toNat < 2 ^ 64 :=
  staysInside_iff (by decide)

/-- The second byte of a window of two bytes at the last position of the word: a
    release build returns the first byte of the parent, a debug build panics. -/
theorem read_escapes :
    let window (profile : Profile) : SubSource ⟨.bits64, profile⟩ ContentSource :=
      .new _ ⟨[7, 8, 9]⟩ 18446744073709551615 2
    (ByteSource.read 1 1).run (window .release) = .done (.ok [7], window .release) ∧
      (ByteSource.read 1 1).run (window .debug) = .panic .arithmeticOverflow ∧
      ¬ StaysInside ⟨.bits64, .release⟩ 18446744073709551615 2 1 1 ∧
      ¬ StaysInside ⟨.bits64, .debug⟩ 18446744073709551615 2 1 1 :=
  ⟨by decide, by decide,
    not_staysInside_of_overflow (by decide) (by decide) (by decide) (by decide),
    not_staysInside_of_overflow (by decide) (by decide) (by decide) (by decide)⟩

end Window

end SubSource

end ImgTools
