import ImgTools.Slice

/-!
# Writers of pieces

A writer that is given data takes a piece from the front of it, as long as it likes, or
fails. `Takes` says what becomes of it when the rest is offered again and again;
writing everything follows it, with as many turns as there is data.
-/

namespace Exec

variable {W ε α : Type}

/-- The writer takes all of the data and becomes the writer that is given, or stops: it
    fails, or takes nothing of data that is left. -/
inductive Takes (write : W → List α → Except ε Nat × W) : W → List α → Option W → Prop where
  | finished (w : W) : Takes write w [] (some w)
  | refused {w w' : W} {a : α} {as : List α} (h : write w (a :: as) = (.ok 0, w')) :
    Takes write w (a :: as) none
  | failed {w w' : W} {a : α} {as : List α} {e : ε} (h : write w (a :: as) = (.error e, w')) :
    Takes write w (a :: as) none
  | piece {w w' : W} {a : α} {as : List α} {n : Nat} {result : Option W}
    (h : write w (a :: as) = (.ok (n + 1), w')) (hle : n ≤ as.length)
    (rest : Takes write w' (as.drop n) result) : Takes write w (a :: as) result

def writeAllTurn (write : W → List α → Except ε Nat × W) (s : W × List α) :
    Outcome (Turn (W × List α) (Option W)) := do
  if s.2.isEmpty then return .exit (some s.1)
  match write s.1 s.2 with
  | (.ok 0, _) => return .exit none
  | (.ok (n + 1), writer) =>
    let rest ← slice s.2 (n + 1) s.2.length
    return .next (writer, rest)
  | (.error _, _) => return .exit none

def writeAll (write : W → List α → Except ε Nat × W) (budget : Nat) (w : W) (data : List α) :
    Outcome (Option W) :=
  loop (writeAllTurn write) budget (w, data)

variable {write : W → List α → Except ε Nat × W}

/-- **Writing everything** ends as the writer says. -/
theorem writeAll_eq {w : W} {data : List α} {result : Option W} (h : Takes write w data result)
    {budget : Nat} (hbudget : data.length < budget) :
    writeAll write budget w data = .done result := by
  obtain ⟨budget, rfl⟩ := Nat.exists_eq_succ_of_ne_zero (Nat.ne_of_gt (Nat.zero_lt_of_lt hbudget))
  rw [writeAll]
  induction h generalizing budget with
  | finished w => exact loop_exit budget rfl
  | @refused w w' a as h =>
    have hturn : writeAllTurn write (w, a :: as) = .done (.exit none) := by
      simp only [writeAllTurn, h, List.isEmpty_cons, Bool.false_eq_true, if_false, Outcome.pure_eq]
    exact loop_exit budget hturn
  | @failed w w' a as e h =>
    have hturn : writeAllTurn write (w, a :: as) = .done (.exit none) := by
      simp only [writeAllTurn, h, List.isEmpty_cons, Bool.false_eq_true, if_false, Outcome.pure_eq]
    exact loop_exit budget hturn
  | @piece w w' a as n result h hle rest ih =>
    have hinside : n + 1 ≤ (a :: as).length := Nat.succ_le_succ hle
    have hslice : slice (a :: as) (n + 1) (a :: as).length = .done (as.drop n) := by
      rw [slice_of_le hinside (Nat.le_refl _), List.take_length, List.drop_succ_cons]
    have hturn : writeAllTurn write (w, a :: as) = .done (.next (w', as.drop n)) := by
      simp only [writeAllTurn, h, hslice, List.isEmpty_cons, Bool.false_eq_true, if_false,
        Outcome.done_bind, Outcome.pure_eq]
    have hleft : as.length < budget := Nat.lt_of_succ_lt_succ hbudget
    obtain ⟨left, rfl⟩ := Nat.exists_eq_succ_of_ne_zero (Nat.ne_of_gt (Nat.zero_lt_of_lt hleft))
    rw [loop_next _ hturn]
    exact ih left (by rw [List.length_drop]; omega)

/-- A writer that takes no more than it is given comes to an end. -/
theorem exists_takes
    (hwrite : ∀ w data n w', write w data = (.ok n, w') → n ≤ data.length) (w : W)
    (data : List α) : ∃ result, Takes write w data result := by
  induction hlength : data.length using Nat.strongRecOn generalizing w data with
  | ind length ih =>
    subst hlength
    match data with
    | [] => exact ⟨_, .finished w⟩
    | a :: as =>
      match hcall : write w (a :: as) with
      | (.ok 0, w') => exact ⟨_, .refused hcall⟩
      | (.ok (n + 1), w') =>
        have hle : n ≤ as.length := Nat.le_of_succ_le_succ (hwrite w _ _ w' hcall)
        have hshort : (as.drop n).length < (a :: as).length := by
          rw [List.length_drop, List.length_cons]
          omega
        obtain ⟨result, hrest⟩ := ih _ hshort w' (as.drop n) rfl
        exact ⟨result, .piece hcall hle hrest⟩
      | (.error e, w') => exact ⟨_, .failed hcall⟩

end Exec
