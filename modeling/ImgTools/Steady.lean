import ImgTools.Fallible
import ImgTools.Word

/-!
# Code that does not depend on its arithmetic

One definition stands for the runs of several builds, with the arithmetic of the
build as a parameter. `Steady P x Q` says that under every parameter of `P` the
code stops normally and with the same result, and that `Q` holds of a value it
yields. The rules follow the shape of the code; an unchecked operation is steady
where its result fits every word in question.
-/

namespace Exec.Fallible

variable {ι ε ε' α β : Type}

/-- The runs under all parameters of `P` end with one result. -/
def Steady (P : ι → Prop) (x : ι → Fallible ε α) (Q : α → Prop) : Prop :=
  ∃ result, (∀ i, P i → x i = Outcome.done result) ∧ ∀ a, result = .ok a → Q a

namespace Steady

variable {P : ι → Prop} {x : ι → Fallible ε α} {f : ι → α → Fallible ε β} {Q : α → Prop}
  {R : β → Prop}

theorem ok {a : α} (h : Q a) : Steady P (fun _ => (ok a : Fallible ε α)) Q :=
  ⟨.ok a, fun _ _ => rfl, by intro b hb; cases hb; exact h⟩

theorem fail (e : ε) : Steady P (fun _ => (fail e : Fallible ε α)) Q :=
  ⟨.error e, fun _ _ => rfl, by intro b hb; cases hb⟩

theorem bind (hx : Steady P x Q) (hf : ∀ a, Q a → Steady P (fun i => f i a) R) :
    Steady P (fun i => x i >>= f i) R := by
  obtain ⟨result, hrun, hresult⟩ := hx
  cases result with
  | error e =>
    refine ⟨.error e, ?_, by intro b hb; cases hb⟩
    intro i hi
    show x i >>= f i = _
    rw [hrun i hi]
    rfl
  | ok a =>
    obtain ⟨result', hrun', hresult'⟩ := hf a (hresult a rfl)
    refine ⟨result', ?_, hresult'⟩
    intro i hi
    show x i >>= f i = _
    rw [hrun i hi]
    exact hrun' i hi

theorem ofExcept (convert : ε' → ε) (result : Except ε' α) :
    Steady P (fun _ => ofExcept convert result) fun a => result = .ok a := by
  cases result with
  | ok a => exact ok rfl
  | error e => exact fail _

theorem failIf {c : Prop} [Decidable c] (e : ε) :
    Steady P (fun _ => failIf c e) fun _ => ¬ c := by
  by_cases h : c
  · have hfail : (Fallible.failIf c e) = Fallible.fail e := if_pos h
    rw [hfail]
    exact fail e
  · have hok : (Fallible.failIf c e) = Fallible.ok () := if_neg h
    rw [hok]
    exact ok h

theorem mono {Q' : α → Prop} (h : Steady P x Q) (hQ : ∀ a, Q a → Q' a) : Steady P x Q' := by
  obtain ⟨result, hrun, hresult⟩ := h
  exact ⟨result, hrun, fun a ha => hQ a (hresult a ha)⟩

theorem ite {c : Prop} [Decidable c] {y : ι → Fallible ε α} (hx : c → Steady P x Q)
    (hy : ¬ c → Steady P y Q) : Steady P (fun i => if c then x i else y i) Q := by
  by_cases h : c
  · simpa only [if_pos h] using hx h
  · simpa only [if_neg h] using hy h

end Steady

theorem Steady.add {P : Arith → Prop} {a b : Nat} (h : ∀ A, P A → A.Fits (a + b)) :
    Steady P (fun A => (liftM (A.add a b) : Fallible ε Nat)) (· = a + b) := by
  refine ⟨.ok (a + b), ?_, by intro n hn; cases hn; rfl⟩
  intro A hA
  show (liftM (A.add a b) : Fallible ε Nat) = _
  rw [Arith.add_of_fits (h A hA)]
  rfl

theorem Steady.sub {P : Arith → Prop} {a b : Nat} (h : ∀ A, P A → A.Fits a) (hle : b ≤ a) :
    Steady P (fun A => (liftM (A.sub a b) : Fallible ε Nat)) (· = a - b) := by
  refine ⟨.ok (a - b), ?_, by intro n hn; cases hn; rfl⟩
  intro A hA
  show (liftM (A.sub a b) : Fallible ε Nat) = _
  rw [Arith.sub_of_le (h A hA) hle]
  rfl

end Exec.Fallible
