import Mathlib.Data.List.Perm.Basic

/-!
# Jobs that write one cell

Jobs are launched in some order and land in another; a job that lands writes its
result to a cell that all of them share. Whatever the order, no job is lost and none
lands twice, and the cell has the result of the job that landed last. The last job
that was launched is that one if jobs land in the order in which they were launched.
-/

namespace Jobs

variable {J R : Type} {result : J → Option R}

/-- The jobs under way, and the cell. -/
structure Board (J R : Type) where
  cell : Option R
  inFlight : List J

def Board.launch (b : Board J R) (job : J) : Board J R :=
  { b with inFlight := b.inFlight ++ [job] }

def Board.land (b : Board J R) (index : Nat) (r : R) : Board J R :=
  ⟨some r, b.inFlight.eraseIdx index⟩

/-- A board on which `landed` have landed, of the jobs that were launched. -/
structure Accounts (result : J → Option R) (b : Board J R) (launched landed : List J) : Prop where
  perm : (landed ++ b.inFlight).Perm launched
  cell_eq : b.cell = landed.getLast?.bind result
  landed_some : ∀ job ∈ landed, ∃ r, result job = some r

theorem Accounts.start : Accounts result (⟨none, []⟩ : Board J R) [] [] :=
  ⟨.refl _, rfl, by simp⟩

section Step

variable {b : Board J R} {launched landed : List J}

theorem Accounts.launch (h : Accounts result b launched landed) (job : J) :
    Accounts result (b.launch job) (launched ++ [job]) landed where
  perm := by
    rw [Board.launch, ← List.append_assoc]
    exact h.perm.append_right [job]
  cell_eq := h.cell_eq
  landed_some := h.landed_some

theorem Accounts.land (h : Accounts result b launched landed) {index : Nat} {job : J}
    (hjob : b.inFlight[index]? = some job) {r : R} (hr : result job = some r) :
    Accounts result (b.land index r) launched (landed ++ [job]) where
  perm := by
    obtain ⟨hindex, rfl⟩ := List.getElem?_eq_some_iff.mp hjob
    rw [Board.land, List.append_assoc, List.singleton_append]
    exact ((List.getElem_cons_eraseIdx_perm hindex).append_left landed).trans h.perm
  cell_eq := by
    rw [Board.land, List.getLast?_concat, Option.bind_some, hr]
  landed_some := by
    intro other hmem
    rcases List.mem_append.mp hmem with hmem | hmem
    · exact h.landed_some other hmem
    · obtain rfl := List.mem_singleton.mp hmem
      exact ⟨r, hr⟩

def InOrder (b : Board J R) (launched landed : List J) : Prop := landed ++ b.inFlight = launched

theorem InOrder.start : InOrder (⟨none, []⟩ : Board J R) [] [] := rfl

/-- In order, and with none under way, the cell has the result of the last job launched. -/
theorem InOrder.idle {front : List J} {job : J} (h : InOrder b (front ++ [job]) landed)
    (hidle : b.inFlight = []) (haccounts : Accounts result b (front ++ [job]) landed) :
    ∃ r, b.cell = some r ∧ result job = some r := by
  unfold InOrder at h
  rw [hidle, List.append_nil] at h
  subst h
  obtain ⟨r, hr⟩ := haccounts.landed_some job (List.mem_append_right _ List.mem_cons_self)
  refine ⟨r, ?_, hr⟩
  rw [haccounts.cell_eq, List.getLast?_concat, Option.bind_some, hr]

theorem InOrder.launch (h : InOrder b launched landed) (job : J) :
    InOrder (b.launch job) (launched ++ [job]) landed := by
  unfold InOrder Board.launch at *
  rw [← h, List.append_assoc]

theorem InOrder.land (h : InOrder b launched landed) {job : J}
    (hjob : b.inFlight[0]? = some job) (r : R) :
    InOrder (b.land 0 r) launched (landed ++ [job]) := by
  unfold InOrder Board.land at *
  cases hflight : b.inFlight with
  | nil => simp [hflight] at hjob
  | cons first rest =>
    rw [hflight] at hjob h
    obtain rfl := Option.some.inj hjob
    rw [← h, List.eraseIdx_cons_zero, List.append_assoc, List.singleton_append]

end Step

end Jobs
