import Mathlib.Control.Basic

/-!
# Evaluation of checked imperative code

A small evaluation monad for code that may stop abnormally: an expression
either yields a value, panics, or exhausts the turn budget of a bounded loop.
The last outcome does not exist in the modelled language; it is what a bounded
unrolling says when its budget was too small, and the loop rules below are the
place where it is excluded.

Loops are unrolled by `loop`, which runs a turn function until it exits. The
two rules `loop_spec` and `loop_eq` package the induction once: they ask for an
invariant, a measure that falls with every turn, and what one turn does.
-/

namespace Exec

inductive Panic where
  | indexOutOfBounds
  | sliceOrder
  | sliceEnd
  | copyLength
  | arithmeticOverflow
  | capacityOverflow
deriving DecidableEq, Repr

/-- The result of an evaluation. `spin` is reported by a bounded loop whose
    budget ran out before it exited. -/
inductive Outcome (α : Type) where
  | done (value : α)
  | panic (reason : Panic)
  | spin
deriving DecidableEq, Repr

namespace Outcome

variable {α β γ : Type}

def bind (x : Outcome α) (f : α → Outcome β) : Outcome β :=
  match x with
  | done a => f a
  | panic reason => panic reason
  | spin => spin

instance : Monad Outcome where
  pure := done
  bind := bind

@[simp] theorem pure_eq (a : α) : (pure a : Outcome α) = done a := rfl

@[simp] theorem done_bind (a : α) (f : α → Outcome β) : (done a >>= f) = f a := rfl

@[simp] theorem panic_bind (reason : Panic) (f : α → Outcome β) :
    (panic reason >>= f) = panic reason := rfl

@[simp] theorem spin_bind (f : α → Outcome β) : (spin >>= f) = spin := rfl

instance : LawfulMonad Outcome := LawfulMonad.mk'
  Outcome (by intro α x; cases x <;> rfl) (by intros; rfl)
  (by intro α β γ x f g; cases x <;> rfl)

/-- Inversion of a sequential composition that yielded a value. -/
theorem bind_eq_done {x : Outcome α} {f : α → Outcome β} {b : β} :
    (x >>= f) = done b ↔ ∃ a, x = done a ∧ f a = done b := by
  cases x with
  | done a => simp
  | panic reason => simp
  | spin => simp

def Ends (x : Outcome α) : Prop := ∃ a, x = done a

theorem Ends.done (a : α) : Ends (Outcome.done a) := ⟨a, rfl⟩

theorem Ends.bind {x : Outcome α} {f : α → Outcome β} (hx : x.Ends)
    (hf : ∀ a, x = Outcome.done a → (f a).Ends) : (x >>= f).Ends := by
  obtain ⟨a, rfl⟩ := hx
  exact hf a rfl

theorem Ends.ite {c : Prop} [Decidable c] {x y : Outcome α} (hx : c → x.Ends)
    (hy : ¬ c → y.Ends) : (if c then x else y).Ends := by
  split
  · next h => exact hx h
  · next h => exact hy h

end Outcome

/-! ### Bounded loops -/

/-- What one turn of a loop decides: go on with a new state, or leave. -/
inductive Turn (σ β : Type) where
  | next (state : σ)
  | exit (value : β)
deriving DecidableEq, Repr

variable {σ β : Type}

/-- Run `turn` until it exits, for at most `budget` turns. -/
def loop (turn : σ → Outcome (Turn σ β)) : Nat → σ → Outcome β
  | 0, _ => .spin
  | budget + 1, state => do
      match ← turn state with
      | .next state' => loop turn budget state'
      | .exit value => return value

def afterTurn (turn : σ → Outcome (Turn σ β)) (budget : Nat) : Turn σ β → Outcome β
  | .next state => loop turn budget state
  | .exit value => .done value

theorem loop_succ (turn : σ → Outcome (Turn σ β)) (budget : Nat) (s : σ) :
    loop turn (budget + 1) s = turn s >>= afterTurn turn budget := rfl

theorem loop_next {turn : σ → Outcome (Turn σ β)} {s s' : σ} (budget : Nat)
    (h : turn s = .done (.next s')) :
    loop turn (budget + 1) s = loop turn budget s' := by
  simp [loop, h]

theorem loop_exit {turn : σ → Outcome (Turn σ β)} {s : σ} {b : β} (budget : Nat)
    (h : turn s = .done (.exit b)) : loop turn (budget + 1) s = .done b := by
  simp [loop, h]

/-- The states that a run from `s` goes through. -/
inductive Visits (turn : σ → Outcome (Turn σ β)) (s : σ) : σ → Prop where
  | refl : Visits turn s s
  | next {t t' : σ} (before : Visits turn s t) (step : turn t = .done (.next t')) :
    Visits turn s t'

/-- The state of a run after `count` turns, when there are that many. -/
def stateAfter (turn : σ → Outcome (Turn σ β)) (s : σ) : Nat → Option σ
  | 0 => some s
  | count + 1 =>
    match (stateAfter turn s count).map turn with
    | some (.done (.next t)) => some t
    | _ => none

theorem visits_of_stateAfter {turn : σ → Outcome (Turn σ β)} {s t : σ} {count : Nat}
    (h : stateAfter turn s count = some t) : Visits turn s t := by
  induction count generalizing t with
  | zero =>
    obtain rfl := Option.some.inj h
    exact .refl
  | succ count ih =>
    simp only [stateAfter] at h
    split at h
    · next t' hturn =>
      obtain rfl := Option.some.inj h
      obtain ⟨u, hu, hstep⟩ := Option.map_eq_some_iff.mp hturn
      exact .next (ih hu) hstep
    · cases h

theorem Visits.exists_stateAfter {turn : σ → Outcome (Turn σ β)} {s t : σ}
    (h : Visits turn s t) : ∃ count, stateAfter turn s count = some t := by
  induction h with
  | refl => exact ⟨0, rfl⟩
  | next before step ih =>
    obtain ⟨count, hcount⟩ := ih
    exact ⟨count + 1, by rw [stateAfter, hcount, Option.map_some, step]⟩

/-- A run that is over stays over. -/
theorem stateAfter_eq_none {turn : σ → Outcome (Turn σ β)} {s : σ} {count count' : Nat}
    (h : stateAfter turn s count = none) (hle : count ≤ count') :
    stateAfter turn s count' = none := by
  induction hle with
  | refl => exact h
  | step hle ih => rw [stateAfter, ih, Option.map_none]

/-- **Total correctness of a loop.** `Post s b` relates the state a run starts in
    to the value it yields. If every turn from a state of the invariant either
    exits with a related value, or reaches a state of the invariant with a
    smaller measure whose related values are related to the first state too,
    then the loop ends, does not panic, and yields a related value. -/
theorem loop_spec (turn : σ → Outcome (Turn σ β)) (Inv : σ → Prop) (measure : σ → Nat)
    (Post : σ → β → Prop)
    (hturn : ∀ s, Inv s →
      (∃ s', turn s = .done (.next s') ∧ Inv s' ∧ measure s' < measure s ∧
        ∀ b, Post s' b → Post s b) ∨
      (∃ b, turn s = .done (.exit b) ∧ Post s b)) :
    ∀ (budget : Nat) (s : σ), Inv s → measure s < budget →
      ∃ b, loop turn budget s = .done b ∧ Post s b := by
  intro budget
  induction budget with
  | zero => intro s _ hlt; omega
  | succ budget ih =>
    intro s hs hlt
    rcases hturn s hs with ⟨s', hstep, hs', hless, hback⟩ | ⟨b, hstep, hb⟩
    · obtain ⟨b, hrun, hb⟩ := ih s' hs' (by omega)
      exact ⟨b, by rw [loop_next budget hstep, hrun], hback b hb⟩
    · exact ⟨b, loop_exit budget hstep, hb⟩

/-- **Partial correctness of a loop.** What every turn preserves holds of
    whatever value the loop yields. -/
theorem loop_inv (turn : σ → Outcome (Turn σ β)) (Inv : σ → Prop) (Post : β → Prop)
    (hnext : ∀ s s', Inv s → turn s = .done (.next s') → Inv s')
    (hexit : ∀ s b, Inv s → turn s = .done (.exit b) → Post b) :
    ∀ (budget : Nat) (s : σ) (b : β), Inv s → loop turn budget s = .done b → Post b := by
  intro budget
  induction budget with
  | zero => intro s b _ hrun; simp [loop] at hrun
  | succ budget ih =>
    intro s b hs hrun
    simp only [loop] at hrun
    obtain ⟨t, hstep, hrest⟩ := Outcome.bind_eq_done.mp hrun
    cases t with
    | next s' => exact ih s' b (hnext s s' hs hstep) hrest
    | exit b' =>
      have hb : b' = b := by simpa using hrest
      exact hb ▸ hexit s b' hs hstep

/-- **A loop computes a function.** If the value of `f` is unchanged by a turn
    that goes on and is the value a turn exits with, then the loop yields it. -/
theorem loop_eq (turn : σ → Outcome (Turn σ β)) (Inv : σ → Prop) (measure : σ → Nat)
    (f : σ → β)
    (hturn : ∀ s, Inv s →
      (∃ s', turn s = .done (.next s') ∧ Inv s' ∧ measure s' < measure s ∧ f s' = f s) ∨
      turn s = .done (.exit (f s)))
    (budget : Nat) (s : σ) (hs : Inv s) (hlt : measure s < budget) :
    loop turn budget s = .done (f s) := by
  obtain ⟨b, hrun, hb⟩ := loop_spec turn Inv measure (fun s b => b = f s) (by
    intro s hs
    rcases hturn s hs with ⟨s', hstep, hs', hless, hf⟩ | hstep
    · exact Or.inl ⟨s', hstep, hs', hless, fun b hb => hb.trans hf⟩
    · exact Or.inr ⟨f s, hstep, rfl⟩) budget s hs hlt
  rw [hrun, hb]

end Exec
