import ImgTools.Outcome

/-!
# Indexing and slicing

The element and range accesses of a bounds-checked array language, over lists.
Each access panics exactly when the language's own check fails, and is a total
list operation under the bound that makes it legal.
-/

namespace Exec

variable {α : Type}

def index (xs : List α) (i : Nat) : Outcome α :=
  match xs[i]? with
  | some x => .done x
  | none => .panic .indexOutOfBounds

/-- `&xs[lo..hi]`. -/
def slice (xs : List α) (lo hi : Nat) : Outcome (List α) :=
  if hi < lo then .panic .sliceOrder
  else if xs.length < hi then .panic .sliceEnd
  else .done ((xs.take hi).drop lo)

/-- `xs[i] = x`. -/
def store (xs : List α) (i : Nat) (x : α) : Outcome (List α) :=
  if i < xs.length then .done (xs.set i x) else .panic .indexOutOfBounds

def copyFromSlice (xs : List α) (lo hi : Nat) (src : List α) : Outcome (List α) :=
  if hi < lo then .panic .sliceOrder
  else if xs.length < hi then .panic .sliceEnd
  else if src.length ≠ hi - lo then .panic .copyLength
  else .done (xs.take lo ++ src ++ xs.drop hi)

theorem index_of_lt {xs : List α} {i : Nat} (h : i < xs.length) :
    index xs i = .done xs[i] := by
  simp [index, List.getElem?_eq_getElem h]

theorem index_of_drop {xs : List α} {i : Nat} {x : α} {rest : List α}
    (h : xs.drop i = x :: rest) : index xs i = .done x := by
  have hget : xs[i]? = some x := by
    rw [← List.head?_drop, h]
    rfl
  simp [index, hget]

theorem slice_of_le {xs : List α} {lo hi : Nat} (hlo : lo ≤ hi) (hhi : hi ≤ xs.length) :
    slice xs lo hi = .done ((xs.take hi).drop lo) := by
  rw [slice, if_neg (Nat.not_lt.mpr hlo), if_neg (Nat.not_lt.mpr hhi)]

theorem slice_ends {xs : List α} {lo hi : Nat} (hlo : lo ≤ hi) (hhi : hi ≤ xs.length) :
    (slice xs lo hi).Ends := ⟨_, slice_of_le hlo hhi⟩

theorem slice_eq_done {xs ys : List α} {lo hi : Nat} (h : slice xs lo hi = .done ys) :
    lo ≤ hi ∧ hi ≤ xs.length ∧ ys = (xs.take hi).drop lo := by
  unfold slice at h
  split at h
  · cases h
  · next hlo =>
    split at h
    · cases h
    · next hhi => exact ⟨Nat.not_lt.mp hlo, Nat.not_lt.mp hhi, (Outcome.done.inj h).symm⟩

theorem slice_append (front part back : List α) :
    slice (front ++ (part ++ back)) front.length (front.length + part.length) = .done part := by
  rw [slice_of_le (Nat.le_add_right _ _) (by simp only [List.length_append]; omega),
    ← List.length_append, ← List.append_assoc, List.take_left, List.drop_left]

/-- A slice that ends within the first `k` elements is one of them. -/
theorem slice_take {lo hi k : Nat} (xs : List α) (hhi : hi ≤ k) :
    slice (xs.take k) lo hi = slice xs lo hi := by
  have hlength : (xs.take k).length < hi ↔ xs.length < hi := by
    rw [List.length_take]
    omega
  simp only [slice, hlength, List.take_take, Nat.min_eq_left hhi]

/-- The parts stand one behind the other from `offset` on. -/
def Stands (xs : List α) : Nat → List (List α) → Prop
  | _, [] => True
  | offset, part :: parts =>
    slice xs offset (offset + part.length) = .done part ∧ Stands xs (offset + part.length) parts

theorem stands_append {xs : List α} {offset : Nat} {front back : List (List α)} :
    Stands xs offset (front ++ back) ↔
      Stands xs offset front ∧ Stands xs (offset + front.flatten.length) back := by
  induction front generalizing offset with
  | nil => simp [Stands]
  | cons part front ih =>
    simp only [List.cons_append, Stands, ih, and_assoc, List.flatten_cons, List.length_append,
      Nat.add_assoc]

/-- The parts of a concatenation stand in it. -/
theorem stands_flatten (front : List α) (parts : List (List α)) (back : List α) :
    Stands (front ++ (parts.flatten ++ back)) front.length parts := by
  induction parts generalizing front with
  | nil => trivial
  | cons part parts ih =>
    rw [List.flatten_cons, List.append_assoc]
    constructor
    · exact slice_append front part _
    · have hrest := ih (front ++ part)
      rw [List.append_assoc, List.length_append] at hrest
      exact hrest

theorem store_of_lt {xs : List α} {i : Nat} (x : α) (h : i < xs.length) :
    store xs i x = .done (xs.set i x) := by
  rw [store, if_pos h]

theorem copyFromSlice_of_le {xs src : List α} {lo hi : Nat} (hlo : lo ≤ hi)
    (hhi : hi ≤ xs.length) (hsrc : src.length = hi - lo) :
    copyFromSlice xs lo hi src = .done (xs.take lo ++ src ++ xs.drop hi) := by
  rw [copyFromSlice, if_neg (Nat.not_lt.mpr hlo), if_neg (Nat.not_lt.mpr hhi),
    if_neg (not_not_intro hsrc)]

end Exec
