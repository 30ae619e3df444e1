import Mathlib.Data.List.Induction
import ImgTools.Region
import ImgTools.Slice

/-!
# Patches of a list

Pieces of data that are written over a list, each at a position of its own, one after
the other. To a reader the list is a partial function of the position, and a patch
changes that function in its region alone. What stands at a position in the end is
what the newest patch that covers it has put there.
-/

structure Patch (α : Type) where
  start : Nat
  data : List α

namespace Patch

open Exec

variable {α : Type}

def region (p : Patch α) : Region := ⟨p.start, p.data.length⟩

def apply (xs : List α) (p : Patch α) : List α :=
  xs.take p.start ++ p.data ++ xs.drop p.region.finish

def Covers (p : Patch α) (i : Nat) : Prop := i ∈ p.region

instance (p : Patch α) : DecidablePred p.Covers :=
  fun i => inferInstanceAs (Decidable (p.start ≤ i ∧ i < p.region.finish))

/-- What a reader finds, once the patch is written over `old`. -/
def written (old : Nat → Option α) (p : Patch α) (i : Nat) : Option α :=
  if p.Covers i then p.data[i - p.start]? else old i

def newest (ps : List (Patch α)) (i : Nat) : Option (Patch α) :=
  ps.reverse.find? fun p => p.Covers i

/-- What the newest patch has put to a position, and what was there where none covers it. -/
def found (old : Nat → Option α) (ps : List (Patch α)) (i : Nat) : Option α :=
  match newest ps i with
  | some p => p.data[i - p.start]?
  | none => old i

/-! ### One patch -/

section Apply

variable {xs : List α} {p : Patch α}

theorem length_apply (h : p.region.finish ≤ xs.length) : (apply xs p).length = xs.length := by
  have hstart : p.start ≤ p.region.finish := Nat.le_add_right _ _
  have hfinish : p.region.finish = p.start + p.data.length := rfl
  simp only [apply, List.length_append, List.length_take, List.length_drop]
  omega

theorem getElem?_apply (h : p.region.finish ≤ xs.length) (i : Nat) :
    (apply xs p)[i]? = p.written (fun j => xs[j]?) i := by
  have hfinish : p.region.finish = p.start + p.data.length := rfl
  have hfront : (xs.take p.start).length = p.start := List.length_take_of_le (by omega)
  rw [written]
  by_cases hbefore : i < p.start
  · rw [if_neg fun hcovers => Nat.not_le.mpr hbefore hcovers.1, apply, List.append_assoc,
      List.getElem?_append_left (by omega), List.getElem?_take_of_lt hbefore]
  · by_cases hbehind : p.region.finish ≤ i
    · rw [if_neg fun hcovers => Nat.not_lt.mpr hbehind hcovers.2, apply, List.getElem?_append_right
        (by rw [List.length_append]; omega), List.getElem?_drop, List.length_append, hfront]
      congr 1
      omega
    · rw [if_pos ⟨Nat.not_lt.mp hbefore, Nat.not_le.mp hbehind⟩, apply, List.append_assoc,
        List.getElem?_append_right (by omega), List.getElem?_append_left (by omega), hfront]

end Apply

/-! ### Many patches -/

variable {ps : List (Patch α)}

theorem newest_append_singleton (ps : List (Patch α)) (p : Patch α) (i : Nat) :
    newest (ps ++ [p]) i = if p.Covers i then some p else newest ps i := by
  rw [newest, List.reverse_append, List.reverse_singleton, List.singleton_append,
    List.find?_cons, newest]
  split <;> simp_all

/-- A patch is the newest until its positions are covered again. -/
theorem newest_of_not_covers {before later : List (Patch α)} {p : Patch α} {i : Nat}
    (hcovers : p.Covers i) (hlater : ∀ q ∈ later, ¬ q.Covers i) :
    newest (before ++ p :: later) i = some p := by
  have hnone : later.reverse.find? (fun q => q.Covers i) = none := by
    refine List.find?_eq_none.mpr fun q hq hq' => hlater q (List.mem_reverse.mp hq) ?_
    exact of_decide_eq_true hq'
  rw [newest, List.reverse_append, List.reverse_cons, List.append_assoc, List.find?_append, hnone,
    Option.none_or, List.singleton_append]
  exact List.find?_cons_of_pos (decide_eq_true hcovers)

/-- A patch is found as it was written until a later one overlaps it. -/
theorem found_of_disjoint {old : Nat → Option α} {before later : List (Patch α)} {p : Patch α}
    (hlater : ∀ q ∈ later, q.region.Disjoint p.region) {k : Nat} (hk : k < p.data.length) :
    found old (before ++ p :: later) (p.start + k) = p.data[k]? := by
  have hcovers : p.Covers (p.start + k) := ⟨Nat.le_add_right _ _, Nat.add_lt_add_left hk _⟩
  have hnewest : newest (before ++ p :: later) (p.start + k) = some p :=
    newest_of_not_covers hcovers fun q hq hq' => hlater q hq _ ⟨hq', hcovers⟩
  rw [found, hnewest]
  exact congrArg _ (Nat.add_sub_cancel_left _ _)

/-- Patches that are written one after the other. -/
theorem foldl_written (old : Nat → Option α) (ps : List (Patch α)) :
    ps.foldl written old = found old ps := by
  induction ps using List.reverseRecOn with
  | nil => rfl
  | append_singleton ps p ih =>
    funext i
    rw [List.foldl_append, List.foldl_cons, List.foldl_nil, written, ih, found, found,
      newest_append_singleton]
    split <;> rfl

theorem length_foldl_apply {xs : List α} (h : ∀ p ∈ ps, p.region.finish ≤ xs.length) :
    (ps.foldl apply xs).length = xs.length := by
  induction ps using List.reverseRecOn with
  | nil => rfl
  | append_singleton ps p ih =>
    have hlength := ih fun q hq => h q (List.mem_append_left _ hq)
    rw [List.foldl_append, List.foldl_cons, List.foldl_nil, length_apply, hlength]
    rw [hlength]
    exact h p (List.mem_append_right _ List.mem_cons_self)

/-- **The newest patch wins.** -/
theorem getElem?_foldl_apply {xs : List α} (h : ∀ p ∈ ps, p.region.finish ≤ xs.length) :
    (fun i => (ps.foldl apply xs)[i]?) = found (fun i => xs[i]?) ps := by
  rw [← foldl_written]
  induction ps using List.reverseRecOn with
  | nil => rfl
  | append_singleton ps p ih =>
    have hps : ∀ q ∈ ps, q.region.finish ≤ xs.length :=
      fun q hq => h q (List.mem_append_left _ hq)
    have hp := h p (List.mem_append_right _ List.mem_cons_self)
    rw [List.foldl_append, List.foldl_append, ← ih hps]
    funext i
    exact getElem?_apply (by rwa [length_foldl_apply hps]) i

end Patch
