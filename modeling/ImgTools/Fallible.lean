import Mathlib.Control.Monad.Basic
import ImgTools.Outcome

/-!
# Functions that return an error

A function of type `Result<_, E>` yields a value or an error when it does not
stop abnormally. `Fallible E` is the error transformer over `Outcome`, with the
two results under the names `ok` and `fail`; an expression that can only stop
abnormally is lifted.
-/

namespace Exec

/-- A computation that yields a value or an error, if it yields at all. -/
abbrev Fallible (ε α : Type) := ExceptT ε Outcome α

theorem except_bind_eq_ok {ε α β : Type} {x : Except ε α} {f : α → Except ε β} {b : β} :
    (x >>= f) = .ok b ↔ ∃ a, x = .ok a ∧ f a = .ok b := by
  constructor
  · intro h
    match x, h with
    | .ok a, h => exact ⟨a, rfl, h⟩
  · rintro ⟨a, rfl, h⟩
    exact h

namespace Fallible

variable {ε ε' α β : Type}

instance [DecidableEq ε] [DecidableEq α] : DecidableEq (Fallible ε α) :=
  inferInstanceAs (DecidableEq (Outcome (Except ε α)))

def ok (a : α) : Fallible ε α := Outcome.done (Except.ok a)

def fail (e : ε) : Fallible ε α := Outcome.done (Except.error e)

/-- `if c { return Err(e) }`. -/
def failIf (c : Prop) [Decidable c] (e : ε) : Fallible ε Unit := if c then fail e else ok ()

/-- The `?` operator on a result whose errors are converted. -/
def ofExcept (convert : ε' → ε) : Except ε' α → Fallible ε α
  | .ok a => ok a
  | .error e => fail (convert e)

@[simp] theorem pure_eq (a : α) : (pure a : Fallible ε α) = ok a := rfl

@[simp] theorem ok_bind (a : α) (f : α → Fallible ε β) : (ok a >>= f) = f a := rfl

@[simp] theorem fail_bind (e : ε) (f : α → Fallible ε β) :
    ((fail e : Fallible ε α) >>= f) = fail e := rfl

@[simp] theorem lift_done (a : α) : (liftM (Outcome.done a) : Fallible ε α) = ok a := rfl

@[simp] theorem lift_panic (reason : Panic) :
    (liftM (Outcome.panic reason : Outcome α) : Fallible ε α) = Outcome.panic reason := rfl

@[simp] theorem ofExcept_ok (convert : ε' → ε) (a : α) : ofExcept convert (.ok a) = ok a := rfl

@[simp] theorem ofExcept_error (convert : ε' → ε) (e : ε') :
    (ofExcept convert (.error e) : Fallible ε α) = fail (convert e) := rfl

@[simp] theorem ok_inj {a b : α} : (ok a : Fallible ε α) = ok b ↔ a = b := by
  constructor
  · intro h
    exact Except.ok.inj (Outcome.done.inj h)
  · rintro rfl
    rfl

@[simp] theorem fail_ne_ok (e : ε) (a : α) : (fail e : Fallible ε α) ≠ ok a := by
  intro h
  cases Outcome.done.inj h

/-- Inversion of a sequential composition that yielded a value. -/
theorem bind_eq_ok {x : Fallible ε α} {f : α → Fallible ε β} {b : β} :
    (x >>= f) = ok b ↔ ∃ a, x = ok a ∧ f a = ok b := by
  constructor
  · intro h
    match x, h with
    | .done (.ok a), h => exact ⟨a, rfl, h⟩
    | .done (.error e), h => exact absurd h (fail_ne_ok e b)
  · rintro ⟨a, rfl, h⟩
    exact h

theorem failIf_eq_ok {c : Prop} [Decidable c] {e : ε} {u : Unit} :
    failIf c e = ok u ↔ ¬ c := by
  unfold failIf
  split <;> simp [*]

theorem lift_eq_ok {x : Outcome α} {a : α} :
    (liftM x : Fallible ε α) = ok a ↔ x = .done a := by
  cases x with
  | done b => simp
  | panic reason => exact iff_of_false (by intro h; cases h) (by simp)
  | spin => exact iff_of_false (by intro h; cases h) (by simp)

/-- Two continuations that agree on the value that is lifted. -/
theorem lift_bind_congr {x : Outcome α} {f g : α → Fallible ε β}
    (h : ∀ a, x = .done a → f a = g a) :
    ((liftM x : Fallible ε α) >>= f) = (liftM x : Fallible ε α) >>= g := by
  cases x with
  | done a => exact h a rfl
  | panic reason => rfl
  | spin => rfl

theorem lift_bind_yields {x : Outcome α} {f : α → Fallible ε β} (hx : x.Ends)
    (hf : ∀ a, ∃ b, f a = ok b) : ∃ b, ((liftM x : Fallible ε α) >>= f) = ok b := by
  obtain ⟨a, rfl⟩ := hx
  exact hf a

theorem ofExcept_eq_ok {convert : ε' → ε} {x : Except ε' α} {a : α} :
    ofExcept convert x = ok a ↔ x = .ok a := by
  cases x with
  | ok b => simp
  | error e => simp

/-! ### The triple -/

/-- **Total correctness.** The code stops normally, and `Q` holds of a value it yields. -/
def Stops (x : Fallible ε α) (Q : α → Prop) : Prop :=
  ∃ result, x = Outcome.done result ∧ ∀ a, result = .ok a → Q a

namespace Stops

variable {x : Fallible ε α} {f : α → Fallible ε β} {Q Q' : α → Prop} {R : β → Prop}

theorem ok {a : α} (h : Q a) : Stops (ok a : Fallible ε α) Q :=
  ⟨.ok a, rfl, by intro b hb; cases hb; exact h⟩

theorem fail (e : ε) : Stops (fail e) Q := ⟨.error e, rfl, by intro b hb; cases hb⟩

/-- Rule of composition: an error of the first part ends the whole. -/
theorem bind (hx : Stops x Q) (hf : ∀ a, Q a → Stops (f a) R) : Stops (x >>= f) R := by
  obtain ⟨result, rfl, hresult⟩ := hx
  match result, hresult with
  | .ok a, hresult => exact hf a (hresult a rfl)
  | .error e, _ => exact fail e

theorem mono (h : Stops x Q) (hQ : ∀ a, Q a → Q' a) : Stops x Q' := by
  obtain ⟨result, hrun, hresult⟩ := h
  exact ⟨result, hrun, fun a ha => hQ a (hresult a ha)⟩

theorem of_ok (h : Stops x Q) {a : α} (hx : x = Fallible.ok a) : Q a := by
  obtain ⟨result, hrun, hresult⟩ := h
  exact hresult a (Outcome.done.inj (hrun.symm.trans hx))

theorem lift {x : Outcome α} (h : x.Ends) :
    Stops (liftM x : Fallible ε α) fun a => x = .done a := by
  obtain ⟨a, rfl⟩ := h
  exact ok rfl

/-- Code that stops normally without an error has a result to go on with. -/
theorem run_ends (h : Stops x Q) : Outcome.Ends x.run := by
  obtain ⟨result, hrun, -⟩ := h
  exact ⟨result, hrun⟩

theorem except (result : Except ε α) :
    Stops (liftM result : Fallible ε α) fun a => result = .ok a := ⟨result, rfl, fun _ h => h⟩

theorem failIf {c : Prop} [Decidable c] {e : ε} : Stops (failIf c e) fun _ => ¬ c := by
  unfold Fallible.failIf
  split
  · exact fail e
  · next h => exact ok h

end Stops

end Fallible

end Exec
