import ImgTools.Reading

/-!
# Access protocols

A protocol says which request may follow which, as steps between stages. A receiver
keeps a log of the requests made of it; `Moves` is the triple that takes the stage of
the log along a run, from the stage before the code to those after it. It speaks of
every run that stops normally, with a value or with an error.
-/

namespace Exec

variable {S R σ ε ε' α β : Type} {Step : σ → R → σ → Prop} {log : S → List R} {start : σ}

inductive Reaches (Step : σ → R → σ → Prop) (start : σ) : List R → σ → Prop where
  | start : Reaches Step start [] start
  | step {log : List R} {stage stage' : σ} {request : R} (h : Reaches Step start log stage)
      (hstep : Step stage request stage') : Reaches Step start (log ++ [request]) stage'

theorem Reaches.invariant {I : List R → σ → Prop} (hstart : I [] start)
    (hstep : ∀ log stage request stage', I log stage → Step stage request stage' →
      I (log ++ [request]) stage') {log : List R} {stage : σ}
    (h : Reaches Step start log stage) : I log stage := by
  induction h with
  | start => exact hstart
  | step _ hs ih => exact hstep _ _ _ _ ih hs

namespace Reading

/-- A run of the code from a receiver of `P` whose log is at `stage` leaves a log at
    some stage, and at one of `Q` when it yields a value. -/
def Moves (Step : σ → R → σ → Prop) (log : S → List R) (start : σ) (P : S → Prop) (stage : σ)
    (x : Reading S ε α) (Q : α → σ → Prop) : Prop :=
  ∀ s result s', P s → Reaches Step start (log s) stage → x.run s = .done (result, s') →
    ∃ stage', Reaches Step start (log s') stage' ∧ ∀ a, result = .ok a → Q a stage'

namespace Moves

variable {P : S → Prop} {stage : σ} {x : Reading S ε α} {f : α → Reading S ε β}
  {Q Q' : α → σ → Prop} {Q'' : β → σ → Prop}

theorem pure {a : α} (h : Q a stage) : Moves Step log start P stage (pure a : Reading S ε α) Q := by
  intro s result s' hs hlog hrun
  cases hrun
  exact ⟨stage, hlog, by rintro _ ⟨⟩; exact h⟩

theorem fail (e : ε) : Moves Step log start P stage (fail e : Reading S ε α) Q := by
  intro s result s' hs hlog hrun
  cases hrun
  exact ⟨stage, hlog, by rintro _ ⟨⟩⟩

theorem lift {x : Fallible ε α} (h : ∀ a, x = Fallible.ok a → Q a stage) :
    Moves Step log start P stage (liftM x : Reading S ε α) Q := by
  intro s result s' hs hlog hrun
  obtain ⟨result', hx, heq⟩ := Outcome.bind_eq_done.mp hrun
  cases heq
  refine ⟨stage, hlog, ?_⟩
  rintro a rfl
  exact h a hx

theorem except (result : Except ε α) :
    Moves Step log start P stage (liftM result : Reading S ε α) fun _ τ => τ = stage := by
  intro s result' s' hs hlog hrun
  cases hrun
  exact ⟨stage, hlog, fun _ _ => rfl⟩

theorem ask (f : S → α) :
    Moves Step log start P stage (ask f : Reading S ε α) fun a τ =>
      τ = stage ∧ ∃ s, P s ∧ a = f s := by
  intro s result s' hs hlog hrun
  cases hrun
  refine ⟨stage, hlog, ?_⟩
  rintro _ ⟨⟩
  exact ⟨rfl, s, hs, rfl⟩

/-- Rule of composition: the second part goes on at the stage that the first one left. -/
theorem bind (hx : Moves Step log start P stage x Q)
    (hf : ∀ a τ, Q a τ → Moves Step log start (fun _ => True) τ (f a) Q'') :
    Moves Step log start P stage (x >>= f) Q'' := by
  intro s result s' hs hlog hrun
  rw [bind_run] at hrun
  obtain ⟨⟨first, s₁⟩, hfirst, hrest⟩ := Outcome.bind_eq_done.mp hrun
  obtain ⟨τ, hτ, hQ⟩ := hx s first s₁ hs hlog hfirst
  cases first with
  | ok a => exact hf a τ (hQ a rfl) s₁ result s' trivial hτ hrest
  | error e =>
    cases hrest
    exact ⟨τ, hτ, by rintro _ ⟨⟩⟩

theorem mono (h : Moves Step log start P stage x Q) (hQ : ∀ a τ, Q a τ → Q' a τ) :
    Moves Step log start P stage x Q' := by
  intro s result s' hs hlog hrun
  obtain ⟨τ, hτ, hresult⟩ := h s result s' hs hlog hrun
  exact ⟨τ, hτ, fun a ha => hQ a τ (hresult a ha)⟩

theorem request {r : R} {stage' : σ} (hstep : Step stage r stage')
    (hlog : ∀ s result s', x.run s = .done (result, s') → log s' = log s ++ [r])
    (hvalue : ∀ s a s', x.run s = .done (.ok a, s') → Q a stage') :
    Moves Step log start P stage x Q := by
  intro s result s' hs hreached hrun
  refine ⟨stage', ?_, ?_⟩
  · rw [hlog s result s' hrun]
    exact hreached.step hstep
  · rintro a rfl
    exact hvalue s a s' hrun

end Moves

end Reading

end Exec
