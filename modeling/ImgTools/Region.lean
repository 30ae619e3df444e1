import Mathlib.Data.List.Basic
import Mathlib.Data.List.Pairwise

/-!
# Byte ranges

Half-open ranges of positions, and lists of them that do not overlap. A list of
non-empty ranges is in increasing order and pairwise disjoint exactly when each
range starts at or after the end of the one before it (`apart_iff_ascending`);
the second form is the one a cursor maintains.
-/

/-- `size` positions from `start` on. -/
structure Region where
  start : Nat
  size : Nat
deriving DecidableEq, Repr

namespace Region

def finish (r : Region) : Nat := r.start + r.size

instance : Membership Nat Region := ⟨fun r p => r.start ≤ p ∧ p < r.finish⟩

theorem mem_iff {r : Region} {p : Nat} : p ∈ r ↔ r.start ≤ p ∧ p < r.finish := Iff.rfl

def Disjoint (r s : Region) : Prop := ∀ p, ¬ (p ∈ r ∧ p ∈ s)

/-- In increasing order, pairwise disjoint, and none before `low`. -/
structure Apart (low : Nat) (rs : List Region) : Prop where
  ordered : rs.Pairwise fun r s => r.start < s.start
  disjoint : rs.Pairwise Disjoint
  above : ∀ r ∈ rs, low ≤ r.start

/-- Each range starts at or after the end of the one before it, the first at or
    after `low`. -/
def Ascending : Nat → List Region → Prop
  | _, [] => True
  | low, r :: rs => low ≤ r.start ∧ Ascending r.finish rs

def lastFinish : Nat → List Region → Nat
  | low, [] => low
  | _, r :: rs => lastFinish r.finish rs

theorem disjoint_iff {r s : Region} (hs : 0 < s.size) (hlt : r.start < s.start) :
    r.Disjoint s ↔ r.finish ≤ s.start := by
  constructor
  · intro h
    by_contra hover
    exact h s.start ⟨⟨Nat.le_of_lt hlt, by omega⟩, ⟨Nat.le_refl _, by unfold finish; omega⟩⟩
  · intro hle p ⟨hr, hs'⟩
    obtain ⟨-, hp⟩ := hr
    obtain ⟨hp', -⟩ := hs'
    omega

theorem Ascending.mono {low low' : Nat} {rs : List Region} (h : Ascending low rs)
    (hle : low' ≤ low) : Ascending low' rs := by
  match rs, h with
  | [], _ => trivial
  | r :: rs, ⟨hlow, hrest⟩ => exact ⟨Nat.le_trans hle hlow, hrest⟩

theorem Ascending.above {low : Nat} {rs : List Region} (h : Ascending low rs) :
    ∀ r ∈ rs, low ≤ r.start := by
  induction rs generalizing low with
  | nil => simp
  | cons s rs ih =>
    obtain ⟨hlow, hrest⟩ := h
    intro r hr
    rcases List.mem_cons.mp hr with rfl | hr
    · exact hlow
    · have hs := ih hrest r hr
      unfold finish at hs
      omega

theorem apart_iff_ascending {low : Nat} {rs : List Region} (hsize : ∀ r ∈ rs, 0 < r.size) :
    Apart low rs ↔ Ascending low rs := by
  induction rs generalizing low with
  | nil => exact iff_of_true ⟨.nil, .nil, by simp⟩ trivial
  | cons r rs ih =>
    have hpos : 0 < r.size := hsize r List.mem_cons_self
    have hrest : ∀ s ∈ rs, 0 < s.size := fun s hs => hsize s (List.mem_cons_of_mem r hs)
    constructor
    · rintro ⟨hordered, hdisjoint, habove⟩
      obtain ⟨hlt, hordered⟩ := List.pairwise_cons.mp hordered
      obtain ⟨hdis, hdisjoint⟩ := List.pairwise_cons.mp hdisjoint
      refine ⟨habove r List.mem_cons_self, (ih hrest).mp ⟨hordered, hdisjoint, ?_⟩⟩
      intro s hs
      exact (disjoint_iff (hrest s hs) (hlt s hs)).mp (hdis s hs)
    · rintro ⟨hlow, hascending⟩
      obtain ⟨hordered, hdisjoint, habove⟩ := (ih hrest).mpr hascending
      have hlt : ∀ s ∈ rs, r.start < s.start := by
        intro s hs
        have hfinish := habove s hs
        unfold finish at hfinish
        omega
      refine ⟨List.pairwise_cons.mpr ⟨hlt, hordered⟩, List.pairwise_cons.mpr ⟨?_, hdisjoint⟩, ?_⟩
      · intro s hs
        exact (disjoint_iff (hrest s hs) (hlt s hs)).mpr (habove s hs)
      · intro s hs
        rcases List.mem_cons.mp hs with rfl | hs
        · exact hlow
        · exact Nat.le_of_lt (Nat.lt_of_le_of_lt hlow (hlt s hs))

theorem ascending_append {low : Nat} {rs : List Region} {r : Region} :
    Ascending low (rs ++ [r]) ↔ Ascending low rs ∧ lastFinish low rs ≤ r.start := by
  induction rs generalizing low with
  | nil => simp [Ascending, lastFinish]
  | cons s rs ih => simp only [List.cons_append, Ascending, lastFinish, ih, and_assoc]

/-- Each range starts where the one before it ends, the first at `low`. -/
def Tiling : Nat → List Region → Prop
  | _, [] => True
  | low, r :: rs => r.start = low ∧ Tiling r.finish rs

theorem tiling_append {low : Nat} {rs : List Region} {r : Region} :
    Tiling low (rs ++ [r]) ↔ Tiling low rs ∧ r.start = lastFinish low rs := by
  induction rs generalizing low with
  | nil => simp [Tiling, lastFinish]
  | cons s rs ih => simp only [List.cons_append, Tiling, lastFinish, ih, and_assoc]

theorem Tiling.ascending {low : Nat} {rs : List Region} (h : Tiling low rs) :
    Ascending low rs := by
  induction rs generalizing low with
  | nil => trivial
  | cons r rs ih => exact ⟨Nat.le_of_eq h.1.symm, ih h.2⟩

/-- A tiling leaves no position out. -/
theorem Tiling.covers {low : Nat} {rs : List Region} (h : Tiling low rs) {p : Nat}
    (hlow : low ≤ p) (hlt : p < lastFinish low rs) : ∃ r ∈ rs, p ∈ r := by
  induction rs generalizing low with
  | nil => exact absurd hlt (Nat.not_lt.mpr hlow)
  | cons r rs ih =>
    by_cases hin : p < r.finish
    · exact ⟨r, List.mem_cons_self, (by rw [h.1]; exact hlow), hin⟩
    · obtain ⟨s, hs, hp⟩ := ih h.2 (Nat.not_lt.mp hin) hlt
      exact ⟨s, List.mem_cons_of_mem r hs, hp⟩

@[simp] theorem lastFinish_append (low : Nat) (rs : List Region) (r : Region) :
    lastFinish low (rs ++ [r]) = r.finish := by
  induction rs generalizing low with
  | nil => rfl
  | cons s rs ih => exact ih s.finish

end Region
