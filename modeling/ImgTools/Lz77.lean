import Mathlib.Data.List.Basic
import Mathlib.Data.List.Infix
import Mathlib.Data.Nat.Find

/-!
# Sliding-window expansion

The meaning of a sequence of literal runs and back-references over an arbitrary
alphabet. A back-reference appends symbols one at a time, each a copy of the
symbol a fixed distance before the end of what has been produced so far; a
reference longer than its distance therefore reads symbols it has itself
appended.

`copyBack_take` is the lemma an encoder uses: a reference whose symbols were
compared extends a prefix of the message to a longer prefix of the message. How far
a reference can reach is the `agreement` of two positions.
-/

namespace Lz77

variable {α : Type}

/-- Append `count` symbols to `window`, each the one `offset` before the end. -/
def copyBack (window : List α) (offset : Nat) : Nat → List α
  | 0 => window
  | count + 1 =>
    let grown := copyBack window offset count
    grown ++ grown[grown.length - offset]?.toList

structure Step (α : Type) where
  literals : List α
  offset : Nat
  matchLen : Nat

def Step.apply (s : Step α) (window : List α) : Option (List α) :=
  let grown := window ++ s.literals
  if 1 ≤ s.offset ∧ s.offset ≤ grown.length then some (copyBack grown s.offset s.matchLen)
  else none

def expand (window : List α) (steps : List (Step α)) : Option (List α) :=
  steps.foldlM (fun window s => s.apply window) window

@[simp] theorem copyBack_zero (window : List α) (offset : Nat) :
    copyBack window offset 0 = window := rfl

@[simp] theorem expand_nil (window : List α) : expand window [] = some window := rfl

theorem expand_cons (window : List α) (s : Step α) (steps : List (Step α)) :
    expand window (s :: steps) = (s.apply window).bind fun grown => expand grown steps := rfl

theorem expand_append (window : List α) (front back : List (Step α)) :
    expand window (front ++ back) =
      (expand window front).bind fun grown => expand grown back := by
  simp only [expand, List.foldlM_append]
  rfl

/-! ### Back-references -/

theorem length_copyBack {window : List α} {offset : Nat} (hpos : 1 ≤ offset)
    (hle : offset ≤ window.length) (count : Nat) :
    (copyBack window offset count).length = window.length + count := by
  induction count with
  | zero => rfl
  | succ count ih =>
    have hlt : (copyBack window offset count).length - offset <
        (copyBack window offset count).length := by omega
    rw [copyBack]
    simp only [List.length_append, List.getElem?_eq_getElem hlt, Option.toList_some,
      List.length_singleton]
    omega

theorem prefix_copyBack (window : List α) (offset count : Nat) :
    window <+: copyBack window offset count := by
  induction count with
  | zero => exact List.prefix_refl window
  | succ count ih => exact ih.trans (List.prefix_append _ _)

/-- A reference that lies inside the window does not depend on what is before it. -/
theorem copyBack_append_left (front : List α) {window : List α} {offset : Nat} (hpos : 1 ≤ offset)
    (hle : offset ≤ window.length) (count : Nat) :
    copyBack (front ++ window) offset count = front ++ copyBack window offset count := by
  induction count with
  | zero => rfl
  | succ count ih =>
    have hlength := length_copyBack hpos hle count
    have hback : (front ++ copyBack window offset count).length - offset =
        front.length + ((copyBack window offset count).length - offset) := by
      rw [List.length_append]
      omega
    rw [copyBack, ih, copyBack, hback, List.getElem?_append_right (Nat.le_add_right _ _),
      Nat.add_sub_cancel_left, List.append_assoc]

/-- **A compared reference extends the message.** If the `count` symbols of
    `message` from `pos` on repeat those `offset` positions before, then copying
    back from the first `pos` symbols produces the first `pos + count`. -/
theorem copyBack_take {message : List α} {pos offset : Nat} (hpos : 1 ≤ offset)
    (hle : offset ≤ pos) :
    ∀ count, pos + count ≤ message.length →
      (∀ j, j < count → message[pos - offset + j]? = message[pos + j]?) →
      copyBack (message.take pos) offset count = message.take (pos + count) := by
  intro count
  induction count with
  | zero => intro _ _; rfl
  | succ count ih =>
    intro hlen hrepeat
    have hshort := ih (by omega) (fun j hj => hrepeat j (by omega))
    have htake : (message.take (pos + count)).length = pos + count := by
      rw [List.length_take]
      omega
    have hback : pos + count - offset = pos - offset + count := by omega
    simp only [copyBack, hshort, htake, hback]
    rw [List.getElem?_take_of_lt (by omega), hrepeat count (by omega), ← Nat.add_assoc,
      List.take_add_one]

theorem Step.apply_eq_some {s : Step α} {window grown : List α} :
    s.apply window = some grown ↔
      1 ≤ s.offset ∧ s.offset ≤ window.length + s.literals.length ∧
        grown = copyBack (window ++ s.literals) s.offset s.matchLen := by
  simp only [Step.apply, List.length_append]
  split
  · next h => simp [h, eq_comm]
  · next h =>
    simp only [reduceCtorEq, false_iff]
    rintro ⟨hpos, hle, -⟩
    exact h ⟨hpos, hle⟩

/-- A step only appends: the window is kept, and it grows by the two lengths. -/
theorem Step.apply_grows {s : Step α} {window grown : List α} (h : s.apply window = some grown) :
    window <+: grown ∧ grown.length = window.length + s.literals.length + s.matchLen := by
  obtain ⟨hpos, hle, rfl⟩ := Step.apply_eq_some.mp h
  constructor
  · exact (List.prefix_append _ _).trans (prefix_copyBack _ _ _)
  · rw [length_copyBack hpos (by rw [List.length_append]; exact hle), List.length_append]

theorem expand_grows {window grown : List α} {steps : List (Step α)}
    (h : expand window steps = some grown) : window <+: grown := by
  induction steps generalizing window with
  | nil =>
    have heq : window = grown := by simpa using h
    exact heq ▸ List.prefix_refl window
  | cons s steps ih =>
    rw [expand_cons] at h
    obtain ⟨middle, hstep, hrest⟩ := Option.bind_eq_some_iff.mp h
    exact (Step.apply_grows hstep).1.trans (ih hrest)

/-- Steps that stay inside the window do not depend on what is before it. -/
theorem Step.apply_append_left {s : Step α} {window grown : List α}
    (h : s.apply window = some grown) (front : List α) :
    s.apply (front ++ window) = some (front ++ grown) := by
  obtain ⟨hpos, hle, rfl⟩ := Step.apply_eq_some.mp h
  refine Step.apply_eq_some.mpr ⟨hpos, ?_, ?_⟩
  · rw [List.length_append]
    omega
  · rw [List.append_assoc, copyBack_append_left front hpos (by rw [List.length_append]; exact hle)]

theorem expand_append_left {window grown : List α} {steps : List (Step α)}
    (h : expand window steps = some grown) (front : List α) :
    expand (front ++ window) steps = some (front ++ grown) := by
  induction steps generalizing window with
  | nil =>
    have heq : window = grown := by simpa using h
    rw [heq, expand_nil]
  | cons s steps ih =>
    rw [expand_cons] at h
    obtain ⟨middle, hstep, hrest⟩ := Option.bind_eq_some_iff.mp h
    rw [expand_cons, Step.apply_append_left hstep front]
    exact ih hrest

/-! ### The longest match -/

section Agreement

variable [DecidableEq α] {message : List α} {limit start pos length : Nat}

/-- How many symbols from `start` on repeat those from `pos` on, before `limit`. -/
def agreement (message : List α) (limit start pos : Nat) : Nat :=
  Nat.findGreatest (fun length => ∀ j, j < length → message[start + j]? = message[pos + j]?)
    (limit - pos)

theorem agreement_inside (h : pos ≤ limit) : pos + agreement message limit start pos ≤ limit := by
  have hle : agreement message limit start pos ≤ limit - pos := Nat.findGreatest_le _
  omega

theorem getElem?_of_lt_agreement {j : Nat} (hj : j < agreement message limit start pos) :
    message[start + j]? = message[pos + j]? := by
  have hnone : ∀ j, j < 0 → message[start + j]? = message[pos + j]? :=
    fun j hj => absurd hj (Nat.not_lt_zero j)
  exact Nat.findGreatest_spec (P := fun length => ∀ j, j < length →
    message[start + j]? = message[pos + j]?) (Nat.zero_le _) hnone j hj

theorem le_agreement (hinside : pos + length ≤ limit)
    (h : ∀ j, j < length → message[start + j]? = message[pos + j]?) :
    length ≤ agreement message limit start pos :=
  Nat.le_findGreatest (by omega) h

/-- A match can be extended exactly by a symbol that agrees, before the limit. -/
theorem lt_agreement_iff (h : length ≤ agreement message limit start pos) :
    length < agreement message limit start pos ↔
      pos + length < limit ∧ message[start + length]? = message[pos + length]? := by
  constructor
  · intro hlt
    have hle : agreement message limit start pos ≤ limit - pos := Nat.findGreatest_le _
    exact ⟨by omega, getElem?_of_lt_agreement hlt⟩
  · rintro ⟨hinside, hsymbol⟩
    apply le_agreement hinside
    intro j hj
    rcases Nat.lt_succ_iff_lt_or_eq.mp hj with hlt | rfl
    · exact getElem?_of_lt_agreement (Nat.lt_of_lt_of_le hlt h)
    · exact hsymbol

end Agreement

end Lz77
