import ImgTools.Fallible

/-!
# Fallible code over a state

A method on a mutable receiver changes the receiver and yields a value or an
error, if it yields at all. `Reading S E` is such code; the state survives an
error, since the receiver does. Code that has no receiver is lifted.

`Meets P x Q` is the total-correctness triple the developments over a receiver
use: `P` is an invariant of the receiver, `Q` speaks of the result. `Returns`
and `Stops` are the triples whose result is known, and whose errors do not
matter. The rules follow the shape of the code, so that no proof opens the monad.
-/

namespace Exec

/-- Code that runs on a state `S` and yields a value or an error of type `ε`. -/
structure Reading (S ε α : Type) where
  run : S → Outcome (Except ε α × S)

namespace Reading

variable {S ε ε' α β : Type}

def andThen (f : α → Reading S ε β) (result : Except ε α) (s : S) : Outcome (Except ε β × S) :=
  match result with
  | .ok a => (f a).run s
  | .error e => .done (.error e, s)

instance : Monad (Reading S ε) where
  pure a := ⟨fun s => .done (.ok a, s)⟩
  bind x f := ⟨fun s => x.run s >>= fun (result, s') => andThen f result s'⟩

/-- Code without a receiver leaves the state alone. -/
instance : MonadLift (Fallible ε) (Reading S ε) where
  monadLift x := ⟨fun s => Outcome.bind x fun result => .done (result, s)⟩

/-- `return Err(e)`. -/
def fail (e : ε) : Reading S ε α := ⟨fun s => .done (.error e, s)⟩

def ask (f : S → α) : Reading S ε α := ⟨fun s => .done (.ok (f s), s)⟩

/-- The `?` operator on a call whose errors are converted. -/
def convert (f : ε' → ε) (x : Reading S ε' α) : Reading S ε α :=
  ⟨fun s => x.run s >>= fun (result, s') => .done (result.mapError f, s')⟩

/-- Run code on the part `get` of a receiver, which `set` puts back. -/
def focus {T : Type} (get : S → T) (set : S → T → S) (x : Reading T ε α) : Reading S ε α :=
  ⟨fun s => x.run (get s) >>= fun (result, part) => .done (result, set s part)⟩

/-! ### Single runs -/

@[simp] theorem pure_run (a : α) (s : S) :
    (pure a : Reading S ε α).run s = .done (.ok a, s) := rfl

@[simp] theorem fail_run (e : ε) (s : S) :
    (fail e : Reading S ε α).run s = .done (.error e, s) := rfl

@[simp] theorem ask_run (f : S → α) (s : S) :
    (ask f : Reading S ε α).run s = .done (.ok (f s), s) := rfl

@[simp] theorem lift_run (x : Outcome α) (s : S) :
    (liftM x : Reading S ε α).run s = x >>= fun a => .done (.ok a, s) := by
  cases x <;> rfl

theorem convert_run (f : ε' → ε) (x : Reading S ε' α) (s : S) :
    (convert f x).run s = x.run s >>= fun (result, s') => .done (result.mapError f, s') := rfl

theorem focus_run {T : Type} (get : S → T) (set : S → T → S) (x : Reading T ε α) (s : S) :
    (focus get set x).run s =
      x.run (get s) >>= fun (result, part) => .done (result, set s part) := rfl

theorem bind_run (x : Reading S ε α) (f : α → Reading S ε β) (s : S) :
    (x >>= f).run s = x.run s >>= fun (result, s') => andThen f result s' := rfl

@[simp] theorem pure_bind (a : α) (f : α → Reading S ε β) :
    (pure a : Reading S ε α) >>= f = f a := rfl

theorem bind_assoc {γ : Type} (x : Reading S ε α) (f : α → Reading S ε β)
    (g : β → Reading S ε γ) : x >>= f >>= g = x >>= fun a => f a >>= g := by
  refine congrArg Reading.mk (funext fun s => ?_)
  rw [bind_run]
  rcases x.run s with ⟨e | a, s'⟩ | reason | _ <;> rfl

theorem bind_of_ok {x : Reading S ε α} {s s' : S} {a : α} (h : x.run s = .done (.ok a, s'))
    (f : α → Reading S ε β) : (x >>= f).run s = (f a).run s' := by
  rw [bind_run, h]
  rfl

theorem bind_of_error {x : Reading S ε α} {s s' : S} {e : ε} (h : x.run s = .done (.error e, s'))
    (f : α → Reading S ε β) : (x >>= f).run s = .done (.error e, s') := by
  rw [bind_run, h]
  rfl

theorem bind_of_panic {x : Reading S ε α} {s : S} {reason : Panic}
    (h : x.run s = .panic reason) (f : α → Reading S ε β) : (x >>= f).run s = .panic reason := by
  rw [bind_run, h]
  rfl

theorem bind_eq_ok {x : Reading S ε α} {f : α → Reading S ε β} {s s' : S} {b : β} :
    (x >>= f).run s = .done (.ok b, s') ↔
      ∃ a s₁, x.run s = .done (.ok a, s₁) ∧ (f a).run s₁ = .done (.ok b, s') := by
  constructor
  · intro h
    rw [bind_run] at h
    obtain ⟨⟨result, s₁⟩, hx, hf⟩ := Outcome.bind_eq_done.mp h
    cases result with
    | ok a => exact ⟨a, s₁, hx, hf⟩
    | error e => cases hf
  · rintro ⟨a, s₁, hx, hf⟩
    rw [bind_of_ok hx, hf]

theorem lift_eq_ok {x : Fallible ε α} {s s' : S} {a : α} :
    (liftM x : Reading S ε α).run s = .done (.ok a, s') ↔ x = Fallible.ok a ∧ s' = s := by
  constructor
  · intro h
    obtain ⟨result, hx, hresult⟩ := Outcome.bind_eq_done.mp h
    cases hresult
    exact ⟨hx, rfl⟩
  · rintro ⟨rfl, rfl⟩
    rfl

theorem except_eq_ok {result : Except ε α} {s s' : S} {a : α} :
    (liftM result : Reading S ε α).run s = .done (.ok a, s') ↔ result = .ok a ∧ s' = s := by
  constructor
  · intro h
    cases h
    exact ⟨rfl, rfl⟩
  · rintro ⟨rfl, rfl⟩
    rfl

/-- A composition of results is lifted part by part. -/
theorem lift_except_bind (x : Except ε α) (f : α → Except ε β) :
    (liftM (x >>= f) : Reading S ε β) = liftM x >>= fun a => liftM (f a) := by
  cases x <;> rfl

/-! ### The triple -/

/-- **Total correctness.** From every state of the invariant `P` the code stops
    normally, in a state of `P`, with a result of which `Q` holds. -/
def Meets (P : S → Prop) (x : Reading S ε α) (Q : Except ε α → Prop) : Prop :=
  ∀ s, P s → ∃ result s', x.run s = .done (result, s') ∧ P s' ∧ Q result

def Returns (P : S → Prop) (x : Reading S ε α) (result : Except ε α) : Prop :=
  Meets P x (· = result)

namespace Meets

variable {P : S → Prop} {x : Reading S ε α} {f : α → Reading S ε β}
  {Q Q' : Except ε α → Prop} {R : Except ε β → Prop}

theorem mono (h : Meets P x Q) (hQ : ∀ result, Q result → Q' result) : Meets P x Q' := by
  intro s hs
  obtain ⟨result, s', hrun, hs', hresult⟩ := h s hs
  exact ⟨result, s', hrun, hs', hQ result hresult⟩

/-- Rule of composition: an error of the first part is the result of the whole. -/
theorem bind (hx : Meets P x Q) (hf : ∀ a, Q (.ok a) → Meets P (f a) R)
    (herror : ∀ e, Q (.error e) → R (.error e)) : Meets P (x >>= f) R := by
  intro s hs
  obtain ⟨result, s', hrun, hs', hresult⟩ := hx s hs
  rw [bind_run, hrun]
  match result, hresult with
  | .ok a, hresult => exact hf a hresult s' hs'
  | .error e, hresult => exact ⟨.error e, s', rfl, hs', herror e hresult⟩

theorem ask {q : S → α} (h : ∀ s, P s → Q (.ok (q s))) : Meets P (ask q) Q :=
  fun s hs => ⟨.ok (q s), s, rfl, hs, h s hs⟩

theorem convert {g : ε → ε'} {Q' : Except ε' α → Prop} (hx : Meets P x Q)
    (h : ∀ result, Q result → Q' (result.mapError g)) : Meets P (convert g x) Q' := by
  intro s hs
  obtain ⟨result, s', hrun, hs', hresult⟩ := hx s hs
  exact ⟨result.mapError g, s', by rw [convert_run, hrun]; rfl, hs', h result hresult⟩

theorem focus {T : Type} (get : T → S) (set : T → S → T) (hset : ∀ t s, get (set t s) = s)
    (hx : Meets P x Q) : Meets (fun t => P (get t)) (focus get set x) Q := by
  intro t ht
  obtain ⟨result, s', hrun, hs', hresult⟩ := hx (get t) ht
  have hpart : P (get (set t s')) := by rw [hset]; exact hs'
  exact ⟨result, set t s', by rw [focus_run, hrun]; rfl, hpart, hresult⟩

end Meets

namespace Returns

variable {P : S → Prop} {x : Reading S ε α} {f : α → Reading S ε β}

theorem pure (a : α) : Returns P (pure a : Reading S ε α) (.ok a) :=
  fun s hs => ⟨.ok a, s, rfl, hs, rfl⟩

theorem fail (e : ε) : Returns P (fail e : Reading S ε α) (.error e) :=
  fun s hs => ⟨.error e, s, rfl, hs, rfl⟩

theorem bind {a : α} {R : Except ε β → Prop} (hx : Returns P x (.ok a)) (hf : Meets P (f a) R) :
    Meets P (x >>= f) R :=
  Meets.bind hx (by rintro b hb; cases hb; exact hf) (by rintro e he; cases he)

theorem bind_error {e : ε} (hx : Returns P x (.error e)) : Returns P (x >>= f) (.error e) :=
  Meets.bind hx (by rintro a ha; cases ha) (by rintro e' he; cases he; rfl)

theorem lift {x : Fallible ε α} {result : Except ε α} (hx : x = Outcome.done result) :
    Returns P (liftM x) result := by
  subst hx
  exact fun s hs => ⟨result, s, rfl, hs, rfl⟩

theorem except (result : Except ε α) : Returns P (liftM result : Reading S ε α) result :=
  lift (x := liftM result) rfl

end Returns

/-- The triple of code that may yield an error, of which nothing is said. -/
def Stops (P : S → Prop) (x : Reading S ε α) (Q : α → Prop) : Prop :=
  Meets P x fun result => ∀ a, result = .ok a → Q a

namespace Stops

variable {P : S → Prop} {x : Reading S ε α} {f : α → Reading S ε β} {Q : α → Prop} {R : β → Prop}

theorem pure {a : α} (h : Q a) : Stops P (pure a : Reading S ε α) Q :=
  (Returns.pure a).mono (by rintro _ rfl b hb; cases hb; exact h)

theorem fail (e : ε) : Stops P (fail e) Q :=
  fun s hs => ⟨.error e, s, rfl, hs, by intro a ha; cases ha⟩

theorem ask (q : S → α) : Stops P (ask q : Reading S ε α) fun _ => True :=
  fun s hs => ⟨.ok (q s), s, rfl, hs, fun _ _ => trivial⟩

theorem bind (hx : Stops P x Q) (hf : ∀ a, Q a → Stops P (f a) R) : Stops P (x >>= f) R :=
  Meets.bind hx (fun a ha => hf a (ha a rfl)) (by intro e _ b hb; cases hb)

theorem lift {x : Fallible ε α} (h : Fallible.Stops x Q) :
    Stops P (liftM x : Reading S ε α) Q := by
  obtain ⟨result, hx, hresult⟩ := h
  exact (Returns.lift hx).mono (by rintro _ rfl; exact hresult)

theorem except (result : Except ε α) :
    Stops P (liftM result : Reading S ε α) fun a => result = .ok a := lift (.except result)

theorem of_returns {a : α} (h : Returns P x (.ok a)) : Stops P x fun b => b = a :=
  Meets.mono h (by rintro _ rfl b hb; cases hb; rfl)

theorem mono {Q' : α → Prop} (h : Stops P x Q) (hQ : ∀ a, Q a → Q' a) : Stops P x Q' :=
  Meets.mono h fun _ hresult a ha => hQ a (hresult a ha)

theorem of_run (h : Stops P x Q) {s s' : S} {a : α} (hs : P s)
    (hrun : x.run s = .done (.ok a, s')) : P s' ∧ Q a := by
  obtain ⟨result, s'', hrun', hs'', hresult⟩ := h s hs
  rw [hrun] at hrun'
  obtain ⟨rfl, rfl⟩ := Prod.mk.inj (Outcome.done.inj hrun')
  exact ⟨hs'', hresult a rfl⟩

theorem convert {g : ε → ε'} (hx : Stops P x Q) : Stops P (convert g x) Q := by
  refine Meets.convert hx ?_
  intro result hresult a ha
  match result, ha with
  | .ok b, ha =>
    cases ha
    exact hresult a rfl

end Stops

end Reading

end Exec
