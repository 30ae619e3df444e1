import Mathlib.Data.List.Basic
import Mathlib.Logic.Function.Basic

/-!
# Chained tables of positions

A table that finds the earlier positions of a message with a given key. It keeps the
last position of every key, and for every position a link to the one before it with
the same key. Links live in slots that distant positions share, so that a table
forgets all but its recent positions.

`Represents` is the invariant of a table that every position has been inserted into
once, in order. `Represents.walks` says what it is for: the walk along the links
visits the recent positions of a key, each once, from the last one to the first.
-/

namespace HashChain

variable {κ σ : Type}

/-! ### The positions of a key -/

section Occurrences

variable [DecidableEq κ] {key : Nat → κ} {k : κ} {i p : Nat}

/-- The positions below `i` that have the key `k`, the last one first. -/
def occurrences (key : Nat → κ) (k : κ) : Nat → List Nat
  | 0 => []
  | i + 1 => if key i = k then i :: occurrences key k i else occurrences key k i

theorem occurrences_succ_of_eq (h : key i = k) :
    occurrences key k (i + 1) = i :: occurrences key k i :=
  if_pos h

theorem occurrences_succ_of_ne (h : key i ≠ k) :
    occurrences key k (i + 1) = occurrences key k i :=
  if_neg h

theorem mem_occurrences : p ∈ occurrences key k i ↔ p < i ∧ key p = k := by
  induction i with
  | zero => simp [occurrences]
  | succ i ih =>
    by_cases h : key i = k
    · rw [occurrences_succ_of_eq h, List.mem_cons, ih]
      constructor
      · rintro (rfl | ⟨hlt, hkey⟩)
        · exact ⟨Nat.lt_succ_self p, h⟩
        · exact ⟨Nat.lt_succ_of_lt hlt, hkey⟩
      · rintro ⟨hlt, hkey⟩
        rcases Nat.lt_succ_iff_lt_or_eq.mp hlt with hlt | rfl
        · exact Or.inr ⟨hlt, hkey⟩
        · exact Or.inl rfl
    · rw [occurrences_succ_of_ne h, ih]
      constructor
      · rintro ⟨hlt, hkey⟩
        exact ⟨Nat.lt_succ_of_lt hlt, hkey⟩
      · rintro ⟨hlt, hkey⟩
        rcases Nat.lt_succ_iff_lt_or_eq.mp hlt with hlt | rfl
        · exact ⟨hlt, hkey⟩
        · exact absurd hkey h

theorem occurrences_descending (key : Nat → κ) (k : κ) (i : Nat) :
    (occurrences key k i).Pairwise (· > ·) := by
  induction i with
  | zero => exact List.Pairwise.nil
  | succ i ih =>
    by_cases h : key i = k
    · rw [occurrences_succ_of_eq h]
      exact List.Pairwise.cons (fun p hp => (mem_occurrences.mp hp).1) ih
    · rw [occurrences_succ_of_ne h]
      exact ih

/-- Behind a position of the key come those below it. -/
theorem occurrences_eq_cons {rest : List Nat} (h : occurrences key k i = p :: rest) :
    rest = occurrences key k p := by
  induction i with
  | zero => cases h
  | succ i ih =>
    by_cases hkey : key i = k
    · rw [occurrences_succ_of_eq hkey] at h
      obtain ⟨rfl, rfl⟩ := List.cons.inj h
      rfl
    · rw [occurrences_succ_of_ne hkey] at h
      exact ih h

end Occurrences

/-! ### Walks along links -/

/-- The walk from a link visits these positions: it ends at an empty link, or at the
    first position that is not near. A walk that never ends visits no list of them. -/
inductive Walks (next : Nat → Option Nat) (near : Nat → Prop) : Option Nat → List Nat → Prop
  | empty : Walks next near none []
  | far {p : Nat} (hfar : ¬ near p) : Walks next near (some p) []
  | visit {p : Nat} {ps : List Nat} (hnear : near p) (hrest : Walks next near (next p) ps) :
    Walks next near (some p) (p :: ps)

namespace Walks

variable {next : Nat → Option Nat} {near : Nat → Prop} {link : Option Nat} {p : Nat}
  {ps : List Nat}

theorem near_of_mem (h : Walks next near link ps) (hp : p ∈ ps) : near p := by
  induction h with
  | empty => cases hp
  | far hfar => cases hp
  | visit hnear hrest ih =>
    rcases List.mem_cons.mp hp with rfl | hp
    · exact hnear
    · exact ih hp

/-- From a position that it visits a walk goes on along the link of that position. -/
theorem rest_of_mem (h : Walks next near link ps) (hp : p ∈ ps) :
    ∃ rest, Walks next near (next p) rest ∧ (p :: rest) <:+ ps := by
  induction h with
  | empty => cases hp
  | far hfar => cases hp
  | visit hnear hrest ih =>
    rcases List.mem_cons.mp hp with rfl | hp
    · exact ⟨_, hrest, List.suffix_rfl⟩
    · obtain ⟨rest, hwalk, hsuffix⟩ := ih hp
      exact ⟨rest, hwalk, hsuffix.trans (List.suffix_cons _ _)⟩

/-- The first position of a link that leads to a near position is visited. -/
theorem mem_of_near (h : Walks next near (some p) ps) (hnear : near p) : p ∈ ps := by
  cases h with
  | far hfar => exact absurd hnear hfar
  | visit _ hrest => exact List.mem_cons_self

/-- A walk that comes to a position linked to itself never ends. -/
theorem not_mem_of_self (h : Walks next near link ps) (hself : next p = some p) : p ∉ ps := by
  intro hp
  have hnear := h.near_of_mem hp
  obtain ⟨rest, hrest, -⟩ := h.rest_of_mem hp
  rw [hself] at hrest
  clear h hp
  induction rest with
  | nil =>
    cases hrest with
    | far hfar => exact hfar hnear
  | cons q rest ih =>
    cases hrest with
    | visit _ hrest => exact ih (hself ▸ hrest)

/-- In a walk that descends, the link of a position is empty or leads below it. -/
theorem next_lt (h : Walks next near link ps) (hdescending : ps.Pairwise (· > ·))
    (hclosed : ∀ q, ¬ near q → q < p) (hp : p ∈ ps) {q : Nat} (hq : next p = some q) : q < p := by
  by_cases hnear : near q
  · obtain ⟨rest, hrest, hsuffix⟩ := h.rest_of_mem hp
    rw [hq] at hrest
    have hordered := hdescending.sublist hsuffix.sublist
    exact List.rel_of_pairwise_cons hordered (hrest.mem_of_near hnear)
  · exact hclosed q hnear

end Walks

/-! ### Tables of links -/

/-- The last position of every key, and in the slot of a position the one before it. -/
@[ext] structure Links (κ σ : Type) where
  head : κ → Option Nat
  chain : σ → Option Nat

def Links.empty : Links κ σ := ⟨fun _ => none, fun _ => none⟩

def Links.insert [DecidableEq κ] [DecidableEq σ] (slot : Nat → σ) (links : Links κ σ) (k : κ)
    (p : Nat) : Links κ σ where
  head := Function.update links.head k (some p)
  chain := Function.update links.chain (slot p) (links.head k)

/-- All positions below `i` have been inserted, each once, and no later one: the slots of
    the last `size` positions are still theirs. -/
structure Represents [DecidableEq κ] (slot : Nat → σ) (size : Nat) (key : Nat → κ) (i : Nat)
    (links : Links κ σ) : Prop where
  head : ∀ k, links.head k = (occurrences key k i).head?
  chain : ∀ p, p < i → i ≤ p + size →
    links.chain (slot p) = (occurrences key (key p) p).head?

section Represents

variable [DecidableEq κ] {slot : Nat → σ} {size : Nat} {key : Nat → κ} {i : Nat}
  {links : Links κ σ}

theorem represents_empty : Represents slot size key 0 Links.empty where
  head := fun _ => rfl
  chain := fun p hp => absurd hp (Nat.not_lt_zero p)

/-- Inserting the next position keeps the invariant. -/
theorem Represents.insert [DecidableEq σ] (h : Represents slot size key i links)
    (hslot : ∀ p q, p < q → q < p + size → slot p ≠ slot q) :
    Represents slot size key (i + 1) (links.insert slot (key i) i) where
  head := by
    intro k
    by_cases hkey : key i = k
    · rw [occurrences_succ_of_eq hkey, ← hkey]
      exact Function.update_self _ _ _
    · rw [occurrences_succ_of_ne hkey, ← h.head k]
      exact Function.update_of_ne (Ne.symm hkey) _ _
  chain := by
    intro p hp hrecent
    rcases Nat.lt_succ_iff_lt_or_eq.mp hp with hlt | rfl
    · rw [← h.chain p hlt (by omega)]
      exact Function.update_of_ne (hslot p i hlt (by omega)) _ _
    · rw [← h.head (key p)]
      exact Function.update_self _ _ _

/-- **The walk from a key visits its near positions**, from the last to the first. -/
theorem Represents.walks (h : Represents slot size key i links) {near : Nat → Prop}
    [DecidablePred near] (hup : ∀ p q, p ≤ q → near p → near q)
    (hreach : ∀ p, near p → i ≤ p + size) (k : κ) :
    Walks (fun p => links.chain (slot p)) near (links.head k)
      ((occurrences key k i).filter fun p => near p) := by
  rw [h.head k]
  suffices hbelow : ∀ m, m ≤ i → Walks (fun p => links.chain (slot p)) near
      (occurrences key k m).head? ((occurrences key k m).filter fun p => near p) from
    hbelow i (Nat.le_refl i)
  intro m
  -- a position leads to those below it, so the induction is on the position
  induction m using Nat.strongRecOn with
  | ind m ih =>
    intro hm
    rcases hoccurrences : occurrences key k m with _ | ⟨p, rest⟩
    · exact .empty
    · obtain rfl := occurrences_eq_cons hoccurrences
      have hp : p ∈ occurrences key k m := by
        rw [hoccurrences]
        exact List.mem_cons_self
      obtain ⟨hlt, hkey⟩ := mem_occurrences.mp hp
      by_cases hnear : near p
      · rw [List.filter_cons, if_pos (decide_eq_true hnear)]
        refine .visit hnear ?_
        rw [h.chain p (Nat.lt_of_lt_of_le hlt hm) (hreach p hnear), hkey]
        exact ih p hlt (Nat.le_of_lt (Nat.lt_of_lt_of_le hlt hm))
      · have hnone : (p :: occurrences key k p).filter (fun p => near p) = [] := by
          apply List.filter_eq_nil_iff.mpr
          intro q hq hnearq
          have hle : q ≤ p := by
            rcases List.mem_cons.mp hq with rfl | hq
            · exact Nat.le_refl q
            · exact Nat.le_of_lt (mem_occurrences.mp hq).1
          exact hnear (hup q p hle (of_decide_eq_true hnearq))
        rw [hnone]
        exact .far hnear

end Represents

end HashChain
