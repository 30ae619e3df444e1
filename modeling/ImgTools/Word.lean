import ImgTools.Outcome
import Mathlib.Tactic.Linarith

/-!
# Machine words

How an addition or a subtraction that leaves the word behaves depends on the
build: a debug build panics, a release build wraps, and the mathematical
reading has no word at all. `Arith` names the three, and `Arith.Fits` is the
condition under which they agree.
-/

namespace Exec

/-- The integers a run computes with. -/
inductive Arith where
  | unbounded
  | checked (bits : Nat)
  | wrapping (bits : Nat)
deriving DecidableEq, Repr

namespace Arith

def word : Arith → Nat → Outcome Nat
  | unbounded, n => .done n
  | checked bits, n => if n < 2 ^ bits then .done n else .panic .arithmeticOverflow
  | wrapping bits, n => .done (n % 2 ^ bits)

def add (A : Arith) (a b : Nat) : Outcome Nat := A.word (a + b)

def sub : Arith → Nat → Nat → Outcome Nat
  | wrapping bits, a, b => .done ((a + 2 ^ bits - b) % 2 ^ bits)
  | _, a, b => if b ≤ a then .done (a - b) else .panic .arithmeticOverflow

/-- The word can hold `n`. -/
def Fits : Arith → Nat → Prop
  | unbounded, _ => True
  | checked bits, n => n < 2 ^ bits
  | wrapping bits, n => n < 2 ^ bits

instance (A : Arith) (n : Nat) : Decidable (A.Fits n) := by
  cases A <;> unfold Fits <;> infer_instance

theorem fits_unbounded (n : Nat) : unbounded.Fits n := trivial

theorem fits_wrapping {bits n : Nat} : (wrapping bits).Fits n ↔ n < 2 ^ bits := Iff.rfl

theorem Fits.mono {A : Arith} {m n : Nat} (h : A.Fits n) (hle : m ≤ n) : A.Fits m := by
  cases A with
  | unbounded => trivial
  | checked bits => exact Nat.lt_of_le_of_lt hle h
  | wrapping bits => exact Nat.lt_of_le_of_lt hle h

theorem word_of_fits {A : Arith} {n : Nat} (h : A.Fits n) : A.word n = .done n := by
  cases A with
  | unbounded => rfl
  | checked bits => exact if_pos h
  | wrapping bits => exact congrArg _ (Nat.mod_eq_of_lt h)

theorem add_of_fits {A : Arith} {a b : Nat} (h : A.Fits (a + b)) :
    A.add a b = .done (a + b) := word_of_fits h

theorem sub_of_le {A : Arith} {a b : Nat} (h : A.Fits a) (hle : b ≤ a) :
    A.sub a b = .done (a - b) := by
  cases A with
  | unbounded => exact if_pos hle
  | checked bits => exact if_pos hle
  | wrapping bits =>
    have ha : a < 2 ^ bits := h
    have hsum : a + 2 ^ bits - b = (a - b) + 2 ^ bits := by omega
    rw [sub, hsum, Nat.add_mod_right, Nat.mod_eq_of_lt (by omega)]

/-- The value a mathematical result has in the word, when nothing panics. -/
def norm : Arith → Nat → Nat
  | wrapping bits, n => n % 2 ^ bits
  | _, n => n

/-- No result up to `bound` panics. -/
def Quiet (A : Arith) (bound : Nat) : Prop := ∀ n ≤ bound, A.word n = .done (A.norm n)

theorem norm_le (A : Arith) (n : Nat) : A.norm n ≤ n := by
  cases A with
  | unbounded => exact Nat.le_refl n
  | checked bits => exact Nat.le_refl n
  | wrapping bits => exact Nat.mod_le n _

theorem norm_of_fits {A : Arith} {n : Nat} (h : A.Fits n) : A.norm n = n := by
  cases A with
  | unbounded => rfl
  | checked bits => rfl
  | wrapping bits => exact Nat.mod_eq_of_lt h

theorem norm_norm_add (A : Arith) (a b : Nat) : A.norm (A.norm a + b) = A.norm (a + b) := by
  cases A with
  | unbounded => rfl
  | checked bits => rfl
  | wrapping bits => exact Nat.mod_add_mod a _ b

theorem quiet_of_fits {A : Arith} {bound : Nat} (h : A.Fits bound) : A.Quiet bound := by
  intro n hle
  rw [word_of_fits (h.mono hle), norm_of_fits (h.mono hle)]

theorem quiet_wrapping (bits bound : Nat) : (wrapping bits).Quiet bound := fun _ _ => rfl

theorem sum_mod_cases {bits a b : Nat} (ha : a ≤ 2 ^ bits) (hb : b < 2 ^ bits) :
    (a + b < 2 ^ bits ∧ (a + b) % 2 ^ bits = a + b) ∨
    (2 ^ bits ≤ a + b ∧ (a + b) % 2 ^ bits = a + b - 2 ^ bits) := by
  by_cases hfit : a + b < 2 ^ bits
  · exact Or.inl ⟨hfit, Nat.mod_eq_of_lt hfit⟩
  · refine Or.inr ⟨Nat.not_lt.mp hfit, ?_⟩
    rw [Nat.mod_eq_sub_mod (Nat.not_lt.mp hfit), Nat.mod_eq_of_lt (by omega)]

theorem Quiet.add {A : Arith} {bound : Nat} (h : A.Quiet bound) {a b : Nat}
    (hle : a + b ≤ bound) : A.add a b = .done (A.norm (a + b)) := h (a + b) hle

end Arith

def checkedAdd (bits a b : Nat) : Option Nat := if a + b < 2 ^ bits then some (a + b) else none

def saturatingAdd (bits a b : Nat) : Nat := min (a + b) (2 ^ bits - 1)

def saturatingMul (bits a b : Nat) : Nat := min (a * b) (2 ^ bits - 1)

def checkedSub (a b : Nat) : Option Nat := if b ≤ a then some (a - b) else none

def isPowerOfTwo (p : Nat) : Bool := 2 ^ p.log2 == p

theorem checkedAdd_eq_some {bits a b c : Nat} :
    checkedAdd bits a b = some c ↔ a + b < 2 ^ bits ∧ c = a + b := by
  unfold checkedAdd
  split
  · next h => simp [h, eq_comm]
  · next h => simp [h]

end Exec
