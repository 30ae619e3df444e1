import ImgTools.Outcome

/-!
# Readers of chunks

A reader that is called again and again delivers chunks until it is at the end or
fails. `Delivers` says which chunks these are; reading to the end collects them.
How long a run takes is up to the reader, so that a run is given a budget of turns.
-/

namespace Exec

variable {R ε α : Type}

/-- The calls of `read` from `r` on deliver the chunks, none of them empty, and then
    the end, or an error when `clean` is false. -/
inductive Delivers (read : R → Except ε (List α) × R) : R → List (List α) → Bool → Prop where
  | finished {r r' : R} (h : read r = (.ok [], r')) : Delivers read r [] true
  | failed {r r' : R} {e : ε} (h : read r = (.error e, r')) : Delivers read r [] false
  | chunk {r r' : R} {a : α} {as : List α} {chunks : List (List α)} {clean : Bool}
    (h : read r = (.ok (a :: as), r')) (rest : Delivers read r' chunks clean) :
    Delivers read r ((a :: as) :: chunks) clean

def readToEndTurn (read : R → Except ε (List α) × R) (s : R × List α) :
    Outcome (Turn (R × List α) (Bool × List α)) :=
  match read s.1 with
  | (.ok [], _) => return .exit (true, s.2)
  | (.ok (a :: as), reader) => return .next (reader, s.2 ++ a :: as)
  | (.error _, _) => return .exit (false, s.2)

def readToEnd (read : R → Except ε (List α) × R) (budget : Nat) (r : R) :
    Outcome (Bool × List α) :=
  loop (readToEndTurn read) budget (r, [])

section Read

variable {read : R → Except ε (List α) × R} {r : R} {chunks : List (List α)} {clean : Bool}

theorem loop_readToEnd (h : Delivers read r chunks clean) (collected : List α) {budget : Nat}
    (hbudget : chunks.length < budget) :
    loop (readToEndTurn read) budget (r, collected) =
      .done (clean, collected ++ chunks.flatten) := by
  obtain ⟨budget, rfl⟩ := Nat.exists_eq_succ_of_ne_zero (Nat.ne_of_gt (Nat.zero_lt_of_lt hbudget))
  induction h generalizing collected budget with
  | @finished r r' h =>
    have hturn : readToEndTurn read (r, collected) = .done (.exit (true, collected)) := by
      simp only [readToEndTurn, h, Outcome.pure_eq]
    rw [loop_exit budget hturn, List.flatten_nil, List.append_nil]
  | @failed r r' e h =>
    have hturn : readToEndTurn read (r, collected) = .done (.exit (false, collected)) := by
      simp only [readToEndTurn, h, Outcome.pure_eq]
    rw [loop_exit budget hturn, List.flatten_nil, List.append_nil]
  | @chunk r r' a as chunks clean h rest ih =>
    have hturn : readToEndTurn read (r, collected) =
        .done (.next (r', collected ++ a :: as)) := by
      simp only [readToEndTurn, h, Outcome.pure_eq]
    have hleft : chunks.length < budget := Nat.lt_of_succ_lt_succ hbudget
    obtain ⟨left, rfl⟩ := Nat.exists_eq_succ_of_ne_zero (Nat.ne_of_gt (Nat.zero_lt_of_lt hleft))
    rw [loop_next _ hturn, ih _ left hleft, List.flatten_cons, List.append_assoc]

/-- No chunk is empty, so that there are no more of them than elements. -/
theorem Delivers.length_le (h : Delivers read r chunks clean) :
    chunks.length ≤ chunks.flatten.length := by
  induction h with
  | finished h => exact Nat.le_refl _
  | failed h => exact Nat.le_refl _
  | chunk h rest ih =>
    rw [List.flatten_cons, List.length_append, List.length_cons, List.length_cons]
    omega

/-- **Reading to the end** collects the chunks. -/
theorem readToEnd_eq (h : Delivers read r chunks clean) {budget : Nat}
    (hbudget : chunks.length < budget) :
    readToEnd read budget r = .done (clean, chunks.flatten) := by
  rw [readToEnd, loop_readToEnd h [] hbudget, List.nil_append]

end Read

end Exec
