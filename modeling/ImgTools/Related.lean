import ImgTools.Reading

/-!
# Two runs of fallible code

Two pieces of code over different receivers are alike under a relation of the
receivers when, from related receivers, they end in the same way with the same
result and leave related receivers behind. The rules follow the shape of the
code, so that code which only calls its receiver is alike as soon as the calls
are. `attempt` and `eval` are what an observer of a receiver sees of it.
-/

namespace Exec

namespace Outcome

variable {α β γ δ : Type}

/-- Evaluations that end in the same way, with related values. -/
inductive Related (Q : α → β → Prop) : Outcome α → Outcome β → Prop where
  | done {a : α} {b : β} (h : Q a b) : Related Q (.done a) (.done b)
  | panic (reason : Panic) : Related Q (.panic reason) (.panic reason)
  | spin : Related Q .spin .spin

namespace Related

variable {Q : α → β → Prop} {Q' : γ → δ → Prop} {x : Outcome α} {y : Outcome β}

theorem bind {f : α → Outcome γ} {g : β → Outcome δ} (h : Related Q x y)
    (hf : ∀ a b, Q a b → Related Q' (f a) (g b)) : Related Q' (x >>= f) (y >>= g) := by
  cases h with
  | done hab => exact hf _ _ hab
  | panic reason => exact .panic reason
  | spin => exact .spin

theorem comp {z : Outcome γ} {R : β → γ → Prop} (h : Related Q x y) (h' : Related R y z) :
    Related (fun a c => ∃ b, Q a b ∧ R b c) x z := by
  cases h with
  | done hab =>
    cases h' with
    | done hbc => exact .done ⟨_, hab, hbc⟩
  | panic reason =>
    cases h'
    exact .panic reason
  | spin =>
    cases h'
    exact .spin

end Related

end Outcome

namespace Reading

variable {S T U ε ε' α β : Type}

def attempt (x : Reading S ε α) : Reading S ε' (Except ε α) :=
  ⟨fun s => x.run s >>= fun (result, s') => .done (.ok result, s')⟩

/-- What a caller sees of a run. -/
def eval (x : Reading S ε α) (s : S) : Outcome (Except ε α) := x.run s >>= fun (result, _) => .done result

theorem eval_of_run {x : Reading S ε α} {s s' : S} {result : Except ε α}
    (h : x.run s = .done (result, s')) : x.eval s = .done result := by
  rw [eval, h]
  rfl

/-- Code over `S` and code over `T` that related receivers cannot tell apart. -/
def Alike (R : S → T → Prop) (x : Reading S ε α) (y : Reading T ε α) : Prop :=
  ∀ s t, R s t → Outcome.Related (fun p q => p.1 = q.1 ∧ R p.2 q.2) (x.run s) (y.run t)

namespace Alike

variable {R : S → T → Prop}

theorem pure (a : α) : Alike R (pure a : Reading S ε α) (pure a) :=
  fun _ _ h => .done ⟨rfl, h⟩

theorem fail (e : ε) : Alike R (fail e : Reading S ε α) (fail e) :=
  fun _ _ h => .done ⟨rfl, h⟩

theorem ask {f : S → α} {g : T → α} (h : ∀ s t, R s t → f s = g t) :
    Alike R (ask f : Reading S ε α) (ask g) :=
  fun s t hst => .done ⟨congrArg Except.ok (h s t hst), hst⟩

theorem lift (x : Fallible ε α) : Alike R (liftM x : Reading S ε α) (liftM x) := by
  intro s t hst
  match x with
  | .done result => exact .done ⟨rfl, hst⟩
  | .panic reason => exact .panic reason
  | .spin => exact .spin

theorem except (result : Except ε α) :
    Alike R (liftM result : Reading S ε α) (liftM result) := lift (liftM result)

theorem outcome (x : Outcome α) : Alike R (liftM x : Reading S ε α) (liftM x) := lift (liftM x)

theorem bind {x : Reading S ε α} {y : Reading T ε α} {f : α → Reading S ε β}
    {g : α → Reading T ε β} (h : Alike R x y) (hf : ∀ a, Alike R (f a) (g a)) :
    Alike R (x >>= f) (y >>= g) := by
  intro s t hst
  rw [bind_run, bind_run]
  refine (h s t hst).bind ?_
  rintro ⟨result, s'⟩ ⟨result', t'⟩ ⟨heq, hst'⟩
  cases heq
  cases result with
  | ok a => exact hf a s' t' hst'
  | error e => exact .done ⟨rfl, hst'⟩

/-- A part without a receiver, whose value both sides go on with. -/
theorem bind_lift {x : Fallible ε α} {f : α → Reading S ε β} {g : α → Reading T ε β}
    (hf : ∀ a, x = Fallible.ok a → Alike R (f a) (g a)) :
    Alike R (liftM x >>= f) (liftM x >>= g) := by
  intro s t hst
  rcases x with (e | a) | reason | _
  · exact .done ⟨rfl, hst⟩
  · exact hf a rfl s t hst
  · exact .panic reason
  · exact .spin

theorem convert {x : Reading S ε' α} {y : Reading T ε' α} (f : ε' → ε) (h : Alike R x y) :
    Alike R (convert f x) (convert f y) := by
  intro s t hst
  rw [convert_run, convert_run]
  refine (h s t hst).bind ?_
  rintro ⟨result, s'⟩ ⟨result', t'⟩ ⟨heq, hst'⟩
  exact .done ⟨congrArg (Except.mapError f) heq, hst'⟩

theorem attempt {x : Reading S ε' α} {y : Reading T ε' α} (h : Alike R x y) :
    Alike R (attempt x : Reading S ε _) (attempt y) := by
  intro s t hst
  refine (h s t hst).bind ?_
  rintro ⟨result, s'⟩ ⟨result', t'⟩ ⟨heq, hst'⟩
  exact .done ⟨congrArg Except.ok heq, hst'⟩

/-- Code that each of two relations makes alike. -/
theorem comp {R' : T → U → Prop} {x : Reading S ε α} {y : Reading T ε α} {z : Reading U ε α}
    (h : Alike R x y) (h' : Alike R' y z) :
    Alike (fun s u => ∃ t, R s t ∧ R' t u) x z := by
  rintro s u ⟨t, hst, htu⟩
  have hcomp := (h s t hst).comp (h' t u htu)
  generalize x.run s = p, z.run u = q at hcomp
  cases hcomp with
  | done hpq =>
    obtain ⟨r, ⟨hres, hs⟩, hres', ht⟩ := hpq
    exact .done ⟨hres.trans hres', r.2, hs, ht⟩
  | panic reason => exact .panic reason
  | spin => exact .spin

theorem of_returns {P : S → Prop} {Q : T → Prop} {x : Reading S ε α} {y : Reading T ε α}
    {result : Except ε α} (hx : Returns P x result) (hy : Returns Q y result) :
    Alike (fun s t => P s ∧ Q t) x y := by
  rintro s t ⟨hs, ht⟩
  obtain ⟨_, s', hrun, hs', rfl⟩ := hx s hs
  obtain ⟨_, t', hrun', ht', rfl⟩ := hy t ht
  rw [hrun, hrun']
  exact .done ⟨rfl, hs', ht'⟩

theorem run_of_run {x : Reading S ε α} {y : Reading T ε α} (h : Alike R x y) {s : S} {t t' : T}
    (hst : R s t) {result : Except ε α} (hrun : y.run t = .done (result, t')) :
    ∃ s', x.run s = .done (result, s') ∧ R s' t' := by
  have hrel := h s t hst
  rw [hrun] at hrel
  generalize hx : x.run s = p at hrel
  cases hrel with
  | done hpq => exact ⟨_, congrArg Outcome.done (Prod.ext hpq.1 rfl), hpq.2⟩

/-- What a caller saw of a run is the result of an alike one. -/
theorem run_of_eval {x : Reading S ε α} {y : Reading T ε α} (h : Alike R x y) {s : S} {t : T}
    (hst : R s t) {result : Except ε α} (heval : x.eval s = .done result) :
    ∃ s' t', y.run t = .done (result, t') ∧ R s' t' := by
  obtain ⟨⟨result', s'⟩, hrun, hresult⟩ := Outcome.bind_eq_done.mp heval
  cases hresult
  have hrel := h s t hst
  rw [hrun] at hrel
  generalize hy : y.run t = q at hrel
  cases hrel with
  | done hpq => exact ⟨s', _, congrArg Outcome.done (Prod.ext hpq.1.symm rfl), hpq.2⟩

theorem eval_eq {x : Reading S ε α} {y : Reading T ε α} (h : Alike R x y) {s : S} {t : T}
    (hst : R s t) : x.eval s = y.eval t := by
  have hrun := h s t hst
  unfold eval
  generalize x.run s = p, y.run t = q at hrun
  cases hrun with
  | done hpq => exact congrArg Outcome.done hpq.1
  | panic reason => rfl
  | spin => rfl

end Alike

end Reading

end Exec
