import ImgTools.Alignment
import ImgTools.Region
import ImgTools.Slice

/-!
# Segments behind one another

Pieces of data, each under a key, written one behind the other: what follows a
piece starts at the next multiple of its alignment, and an empty piece takes no
room. `extents` says where the pieces come to stand, from their lengths alone, and
`holds_write` that they can be cut out there again, whatever stands before and
behind them.
-/

open Alignment

/-- A piece of data under a key, and the alignment of what follows it. -/
structure Segment (κ α : Type) where
  key : κ
  alignment : Nat
  data : List α

namespace Segment

open Exec

variable {κ α : Type}

def next (start : Nat) (s : Segment κ α) : Nat :=
  if 0 < s.data.length then roundUp (start + s.data.length) s.alignment else start

def finish : Nat → List (Segment κ α) → Nat
  | start, [] => start
  | start, s :: segments => finish (next start s) segments

/-- The segments, each filled up to where the next one starts. -/
def write (fill : α) : Nat → List (Segment κ α) → List α
  | _, [] => []
  | start, s :: segments =>
    s.data ++ (List.replicate (next start s - (start + s.data.length)) fill ++
      write fill (next start s) segments)

def extents : Nat → List (Segment κ α) → List (κ × Region)
  | _, [] => []
  | start, s :: segments =>
    if 0 < s.data.length then
      (s.key, ⟨start, s.data.length⟩) :: extents (next start s) segments
    else extents start segments

def contents : List (Segment κ α) → List (κ × List α)
  | [] => []
  | s :: segments =>
    if 0 < s.data.length then (s.key, s.data) :: contents segments else contents segments

/-- The extents cut the given pieces out of `bytes`. -/
def Holds (bytes : List α) (extents : List (κ × Region)) (pieces : List (κ × List α)) : Prop :=
  List.Forall₂ (fun e piece => e.1 = piece.1 ∧
    slice bytes e.2.start e.2.finish = .done piece.2) extents pieces

section Lengths

variable {start : Nat} {s : Segment κ α} {segments : List (Segment κ α)}

theorem next_of_pos (h : 0 < s.data.length) :
    next start s = roundUp (start + s.data.length) s.alignment := if_pos h

theorem next_of_empty (h : ¬ 0 < s.data.length) : next start s = start := if_neg h

theorem le_next (h : 0 < s.alignment) (start : Nat) : start + s.data.length ≤ next start s := by
  unfold next
  split
  · exact le_roundUp h _
  · next hempty =>
    have hzero := Nat.eq_zero_of_not_pos hempty
    omega

theorem length_write (h : ∀ s ∈ segments, 0 < s.alignment) (fill : α) (start : Nat) :
    start + (write fill start segments).length = finish start segments := by
  induction segments generalizing start with
  | nil => rfl
  | cons s segments ih =>
    have hs := le_next (h s List.mem_cons_self) start
    have hrest := ih (fun t ht => h t (List.mem_cons_of_mem s ht)) (next start s)
    rw [finish, ← hrest, write]
    simp only [List.length_append, List.length_replicate]
    omega

/-- A common divisor of the start and the alignments divides every start. -/
theorem dvd_next {a : Nat} (hstart : a ∣ start) (h : a ∣ s.alignment) : a ∣ next start s := by
  unfold next
  split
  · exact h.trans (dvd_roundUp _ _)
  · exact hstart

theorem dvd_finish {a : Nat} (hstart : a ∣ start) (h : ∀ s ∈ segments, a ∣ s.alignment) :
    a ∣ finish start segments := by
  induction segments generalizing start with
  | nil => exact hstart
  | cons s segments ih =>
    exact ih (dvd_next hstart (h s List.mem_cons_self))
      fun t ht => h t (List.mem_cons_of_mem s ht)

/-- Behind a start that is aligned only the data is rounded up. -/
theorem next_of_dvd (h : 0 < s.alignment) (hstart : s.alignment ∣ start) :
    next start s = start + roundUp s.data.length s.alignment := by
  by_cases hsize : 0 < s.data.length
  · rw [next_of_pos hsize, roundUp_add_of_dvd h hstart]
  · rw [next_of_empty hsize, Nat.eq_zero_of_not_pos hsize,
      roundUp_of_dvd h (Nat.dvd_zero _), Nat.add_zero]

@[simp] theorem finish_append (start : Nat) (segments more : List (Segment κ α)) :
    finish start (segments ++ more) = finish (finish start segments) more := by
  induction segments generalizing start with
  | nil => rfl
  | cons s segments ih => exact ih _

theorem key_of_mem_extents {e : κ × Region} (h : e ∈ extents start segments) :
    ∃ s ∈ segments, e.1 = s.key := by
  induction segments generalizing start with
  | nil => exact absurd h List.not_mem_nil
  | cons s segments ih =>
    have hrest : ∀ start, e ∈ extents start segments → ∃ t ∈ s :: segments, e.1 = t.key := by
      intro start he
      obtain ⟨t, ht, hkey⟩ := ih he
      exact ⟨t, List.mem_cons_of_mem s ht, hkey⟩
    rw [extents] at h
    split at h
    · rcases List.mem_cons.mp h with rfl | h
      · exact ⟨s, List.mem_cons_self, rfl⟩
      · exact hrest _ h
    · exact hrest _ h

theorem extents_append (start : Nat) (segments more : List (Segment κ α)) :
    extents start (segments ++ more) =
      extents start segments ++ extents (finish start segments) more := by
  induction segments generalizing start with
  | nil => rfl
  | cons s segments ih =>
    simp only [List.cons_append, extents, finish, ih]
    split
    · rfl
    · next hempty => rw [next_of_empty hempty]

theorem write_append (fill : α) (start : Nat) (segments more : List (Segment κ α)) :
    write fill start (segments ++ more) =
      write fill start segments ++ write fill (finish start segments) more := by
  induction segments generalizing start with
  | nil => rfl
  | cons s segments ih => simp only [List.cons_append, write, finish, ih, List.append_assoc]

end Lengths

/-! ### Cutting the segments out again -/

theorem Holds.append {bytes : List α} {extents extents' : List (κ × Region)}
    {pieces pieces' : List (κ × List α)} (h : Holds bytes extents pieces)
    (h' : Holds bytes extents' pieces') : Holds bytes (extents ++ extents') (pieces ++ pieces') :=
  List.rel_append h h'

/-- Pieces that end within the first `n` elements are cut out of these. -/
theorem Holds.take {bytes : List α} {extents : List (κ × Region)} {pieces : List (κ × List α)}
    {n : Nat} (h : Holds bytes extents pieces) (hfit : ∀ e ∈ extents, e.2.finish ≤ n) :
    Holds (bytes.take n) extents pieces := by
  induction h with
  | nil => exact .nil
  | @cons e piece extents pieces he _ ih =>
    refine .cons ⟨he.1, ?_⟩ (ih fun e' he' => hfit e' (List.mem_cons_of_mem e he'))
    rw [slice_take bytes (hfit e List.mem_cons_self)]
    exact he.2

theorem holds_singleton (key : κ) (front piece back : List α) :
    Holds (front ++ (piece ++ back)) [(key, ⟨front.length, piece.length⟩)] [(key, piece)] :=
  .cons ⟨rfl, slice_append front piece back⟩ .nil

/-- **Written segments are found again.** -/
theorem holds_write {segments : List (Segment κ α)} (h : ∀ s ∈ segments, 0 < s.alignment)
    (fill : α) (front back : List α) :
    Holds (front ++ (write fill front.length segments ++ back)) (extents front.length segments)
      (contents segments) := by
  induction segments generalizing front with
  | nil => exact .nil
  | cons s segments ih =>
    have hs := le_next (h s List.mem_cons_self) front.length
    -- The segments behind `s` stand behind a longer front, of which `s` is a part.
    have hrest := ih (fun t ht => h t (List.mem_cons_of_mem s ht))
      (front ++ (s.data ++
        List.replicate (next front.length s - (front.length + s.data.length)) fill))
    have hlength : (front ++ (s.data ++ List.replicate
        (next front.length s - (front.length + s.data.length)) fill)).length =
        next front.length s := by
      simp only [List.length_append, List.length_replicate]
      omega
    rw [hlength] at hrest
    simp only [List.append_assoc] at hrest
    simp only [write, List.append_assoc, extents, contents]
    split
    · exact .cons ⟨rfl, slice_append front s.data _⟩ hrest
    · next hempty => rwa [next_of_empty hempty] at hrest ⊢

end Segment
