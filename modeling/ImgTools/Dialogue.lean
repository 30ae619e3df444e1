import ImgTools.Related
import Mathlib.Tactic.Choose

/-!
# Dialogues with a receiver

Code that uses its receiver only by questions is a tree: it asks a question and goes
on with the answer, or it ends. An answer that is an error ends the whole. Playing
one tree against the receivers of different types is running one piece of code over
them, so what depends on the answers alone is proved here once, by induction on the
tree: which questions matter, what a faulty receiver can do, and what a log records.
-/

namespace Exec

/-- Code that asks questions of `Q`, answered in `A`. -/
inductive Dialogue (Q : Type) (A : Q → Type) (ε α : Type) where
  | finish (x : Fallible ε α)
  | ask (question : Q) (next : A question → Dialogue Q A ε α)

namespace Dialogue

variable {Q : Type} {A : Q → Type} {S T ε α β : Type}

abbrev Answer (S : Type) (A : Q → Type) (ε : Type) : Type := ∀ question, Reading S ε (A question)

def run (answer : Answer S A ε) : Dialogue Q A ε α → Reading S ε α
  | finish x => liftM x
  | ask question next => do
    let a ← answer question
    run answer (next a)

def afterEnd (f : α → Dialogue Q A ε β) : Fallible ε α → Dialogue Q A ε β
  | .done (.ok a) => f a
  | .done (.error e) => finish (Fallible.fail e)
  | .panic reason => finish (Outcome.panic reason)
  | .spin => finish Outcome.spin

def bind (f : α → Dialogue Q A ε β) : Dialogue Q A ε α → Dialogue Q A ε β
  | finish x => afterEnd f x
  | ask question next => ask question fun a => bind f (next a)

theorem run_bind (answer : Answer S A ε) (d : Dialogue Q A ε α) (f : α → Dialogue Q A ε β) :
    (d.bind f).run answer = d.run answer >>= fun a => (f a).run answer := by
  induction d with
  | finish x =>
    refine congrArg Reading.mk (funext fun s => ?_)
    rcases x with (e | a) | reason | _
    all_goals rfl
  | ask question next ih =>
    simp only [bind, run, ih, Reading.bind_assoc]

/-! ### Code over every receiver -/

section Code

variable {ι : Type*} {R : ι → Type}

/-- The code over the receivers `R` is one dialogue with them. -/
def Converses (answer : ∀ i, Answer (R i) A ε) (x : ∀ i, Reading (R i) ε α) : Prop :=
  ∃ d : Dialogue Q A ε α, ∀ i, x i = d.run (answer i)

namespace Converses

variable {answer : ∀ i, Answer (R i) A ε}

theorem lift (x : Fallible ε α) : Converses answer fun _ => liftM x := ⟨finish x, fun _ => rfl⟩

theorem pure (a : α) : Converses answer fun _ => Pure.pure a := lift (Fallible.ok a)

theorem fail (e : ε) : Converses answer fun _ => (Reading.fail e : Reading _ ε α) :=
  lift (Fallible.fail e)

theorem except (result : Except ε α) :
    Converses answer fun _ => (liftM result : Reading _ ε α) := lift (liftM result)

theorem outcome (x : Outcome α) : Converses answer fun _ => (liftM x : Reading _ ε α) :=
  lift (liftM x)

theorem question (q : Q) : Converses answer fun i => answer i q := by
  refine ⟨ask q fun a => finish (Fallible.ok a), fun i => congrArg Reading.mk (funext fun s => ?_)⟩
  show (answer i q).run s = _ >>= _
  rcases (answer i q).run s with ⟨e | a, s'⟩ | reason | _
  all_goals rfl

theorem bind {x : ∀ i, Reading (R i) ε α} {f : ∀ i, α → Reading (R i) ε β}
    (hx : Converses answer x) (hf : ∀ a, Converses answer fun i => f i a) :
    Converses answer fun i => x i >>= f i := by
  obtain ⟨d, hd⟩ := hx
  choose e he using hf
  refine ⟨d.bind e, fun i => ?_⟩
  rw [run_bind]
  show x i >>= f i = _
  rw [hd i]
  exact congrArg (d.run (answer i) >>= ·) (funext fun a => he a i)

theorem ite {c : Prop} [Decidable c] {x y : ∀ i, Reading (R i) ε α} (hx : c → Converses answer x)
    (hy : ¬ c → Converses answer y) : Converses answer fun i => if c then x i else y i := by
  by_cases h : c
  · simpa only [if_pos h] using hx h
  · simpa only [if_neg h] using hy h

end Converses

end Code

/-! ### The questions of a run -/

inductive Asked (answer : Answer S A ε) : Dialogue Q A ε α → S → Q → Prop where
  | here {question : Q} {next : A question → Dialogue Q A ε α} {s : S} :
      Asked answer (ask question next) s question
  | later {question q : Q} {next : A question → Dialogue Q A ε α} {s s' : S} {a : A question}
      (hrun : (answer question).run s = .done (.ok a, s'))
      (hnext : Asked answer (next a) s' q) : Asked answer (ask question next) s q

/-- **What is not asked does not matter.** Receivers that answer the questions of a
    run alike make for alike runs. -/
theorem related_of_asked {answer : Answer S A ε} {answer' : Answer T A ε} {R : S → T → Prop}
    (d : Dialogue Q A ε α) (s : S) (t : T) (hst : R s t)
    (halike : ∀ q, Asked answer d s q → Reading.Alike R (answer q) (answer' q)) :
    Outcome.Related (fun p q => p.1 = q.1 ∧ R p.2 q.2) ((d.run answer).run s)
      ((d.run answer').run t) := by
  induction d generalizing s t with
  | finish x => exact Reading.Alike.lift x s t hst
  | ask question next ih =>
    have hfirst := halike question .here s t hst
    have hlater : ∀ s' (a : A question), (answer question).run s = .done (.ok a, s') →
        ∀ q, Asked answer (next a) s' q → Reading.Alike R (answer q) (answer' q) :=
      fun s' a hrun q hq => halike q (.later hrun hq)
    rw [run, run, Reading.bind_run, Reading.bind_run]
    generalize (answer question).run s = p, (answer' question).run t = q at hfirst hlater
    cases hfirst with
    | @done p q hpq =>
      obtain ⟨result, s'⟩ := p
      obtain ⟨result', t'⟩ := q
      obtain ⟨rfl, hst'⟩ := hpq
      cases result with
      | ok a => exact ih a s' t' hst' (hlater s' a rfl)
      | error e => exact .done ⟨rfl, hst'⟩
    | panic reason => exact .panic reason
    | spin => exact .spin

/-! ### Faulty receivers -/

/-- The run over `s` ends in a fault, or it is alike to the run over `t`. -/
def AlikeUnless (R : S → T → Prop) (Fault : ε → Prop) (x : Reading S ε α) (y : Reading T ε α) :
    Prop :=
  ∀ s t, R s t → (∃ e s', x.run s = .done (.error e, s') ∧ Fault e) ∨
    Outcome.Related (fun p q => p.1 = q.1 ∧ R p.2 q.2) (x.run s) (y.run t)

/-- **A fault of an answer is the result of the whole**, or there was none. -/
theorem alikeUnless_run {answer : Answer S A ε} {answer' : Answer T A ε} {R : S → T → Prop}
    {Fault : ε → Prop} (hanswer : ∀ q, AlikeUnless R Fault (answer q) (answer' q))
    (d : Dialogue Q A ε α) : AlikeUnless R Fault (d.run answer) (d.run answer') := by
  induction d with
  | finish x => exact fun s t hst => Or.inr (Reading.Alike.lift x s t hst)
  | ask question next ih =>
    intro s t hst
    rw [run, run]
    rcases hanswer question s t hst with ⟨e, s', hrun, hfault⟩ | hrelated
    · exact Or.inl ⟨e, s', Reading.bind_of_error hrun _, hfault⟩
    · rw [Reading.bind_run, Reading.bind_run]
      generalize (answer question).run s = p, (answer' question).run t = q at hrelated
      cases hrelated with
      | @done p q hpq =>
        obtain ⟨result, s'⟩ := p
        obtain ⟨result', t'⟩ := q
        obtain ⟨rfl, hst'⟩ := hpq
        cases result with
        | ok a => exact ih a s' t' hst'
        | error e => exact Or.inr (.done ⟨rfl, hst'⟩)
      | panic reason => exact Or.inr (.panic reason)
      | spin => exact Or.inr .spin

/-- What an observer sees of runs that are alike unless one is faulty. -/
theorem AlikeUnless.eval {R : S → T → Prop} {Fault : ε → Prop} {x : Reading S ε α}
    {y : Reading T ε α} (h : AlikeUnless R Fault x y) {s : S} {t : T} (hst : R s t) :
    x.eval s = y.eval t ∨ ∃ e, Fault e ∧ x.eval s = .done (.error e) := by
  rcases h s t hst with ⟨e, s', hrun, hfault⟩ | hrelated
  · exact Or.inr ⟨e, hfault, Reading.eval_of_run hrun⟩
  · left
    unfold Reading.eval
    generalize x.run s = p, y.run t = q at hrelated
    cases hrelated with
    | done hpq => exact congrArg Outcome.done hpq.1
    | panic reason => rfl
    | spin => rfl

/-! ### Logs -/

/-- A receiver with a log of questions that only grows, and that has every question
    answered put into it. -/
structure Logs {Log : Type} (answer : Answer S A ε) (log : S → List Log) (record : Q → List Log) :
    Prop where
  grows : ∀ q s result s', (answer q).run s = .done (result, s') → log s' = log s ++ record q

variable {Log : Type} {answer : Answer S A ε} {log : S → List Log} {record : Q → List Log}

/-- The log of a run goes on from the log before it. -/
theorem Logs.run_prefix (h : Logs answer log record) (d : Dialogue Q A ε α) {s s' : S}
    {result : Except ε α} (hrun : (d.run answer).run s = .done (result, s')) :
    log s <+: log s' := by
  induction d generalizing s with
  | finish x =>
    obtain ⟨result', hx, heq⟩ := Outcome.bind_eq_done.mp hrun
    cases heq
    exact List.prefix_rfl
  | ask question next ih =>
    rw [run, Reading.bind_run] at hrun
    obtain ⟨⟨answered, s₁⟩, hanswer, hrest⟩ := Outcome.bind_eq_done.mp hrun
    have hfirst : log s <+: log s₁ := ⟨record question, (h.grows question s _ _ hanswer).symm⟩
    cases answered with
    | ok a => exact hfirst.trans (ih a hrest)
    | error e =>
      cases hrest
      exact hfirst

theorem Logs.mem_of_asked (h : Logs answer log record) {d : Dialogue Q A ε α} {s s' : S}
    {result : Except ε α} (hrun : (d.run answer).run s = .done (result, s')) {q : Q}
    (hasked : Asked answer d s q) : ∀ entry ∈ record q, entry ∈ log s' := by
  intro entry hentry
  induction hasked with
  | @here question next s =>
    rw [run, Reading.bind_run] at hrun
    obtain ⟨⟨answered, s₁⟩, hanswer, hrest⟩ := Outcome.bind_eq_done.mp hrun
    have hmem : entry ∈ log s₁ := by
      rw [h.grows question s _ _ hanswer]
      exact List.mem_append_right _ hentry
    cases answered with
    | ok a => exact (h.run_prefix (next a) hrest).subset hmem
    | error e =>
      cases hrest
      exact hmem
  | @later question q next s s₁ a hanswer hnext ih =>
    rw [run, Reading.bind_of_ok hanswer] at hrun
    exact ih hrun hentry

end Dialogue

end Exec
