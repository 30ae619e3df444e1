import ImgTools.Access
import ImgTools.Jobs
import ImgTools.MainActivity
import Mathlib.Data.List.ReduceOption

/-!
# Runs of the activity

Every document that is chosen is inspected on a thread of its own, and a card is set
when its inspection comes back; meanwhile other documents may be chosen. No
inspection is lost and each can come back next, but none of them reaches the engine:
the card says what was thrown for the document whose inspection came back last, and
only if inspections come back in order is that the document selected.
-/

namespace ImgTools

open Exec Kotlin

namespace MainActivity

variable {U : Type}

structure Inspection (U : Type) where
  uri : U
  document : Document

structure State (U : Type) where
  selected : Option U
  detection : Option Detection
  inFlight : List (Inspection U)

def State.init : State U := ⟨none, none, []⟩

inductive Action (U : Type) where
  /-- The picker returns. -/
  | choose (choice : Option (Inspection U))
  /-- The inspection at `index` of those under way comes back. -/
  | finish (index : Nat)

section Step

variable (M : Machine) (B : Build)

def result (job : Inspection U) : Option Detection :=
  match card M B job.document with
  | .done shown => some shown
  | _ => none

def chooseResult (s : State U) : Option (Inspection U) → State U
  | none => { s with selected := none }
  | some job => { s with selected := some job.uri, inFlight := s.inFlight ++ [job] }

def step (s : State U) : Action U → Option (State U)
  | .choose choice => some (chooseResult s choice)
  | .finish index => do
    let job ← s.inFlight[index]?
    let shown ← result M B job
    return { s with detection := some shown, inFlight := s.inFlight.eraseIdx index }

abbrev Runs (actions : List (Action U)) (s : State U) : Prop :=
  Reaches (fun s a s' => step M B s a = some s') State.init actions s

end Step

def choices (actions : List (Action U)) : List (Option (Inspection U)) :=
  actions.filterMap fun
    | .choose choice => some choice
    | .finish _ => none

def chosen (actions : List (Action U)) : List (Inspection U) := (choices actions).reduceOption

/-! ### One step, and a whole run -/

section Run

variable {M : Machine} {B : Build}

def State.board (s : State U) : Jobs.Board (Inspection U) Detection := ⟨s.detection, s.inFlight⟩

/-- What a step can do. -/
theorem step_cases {s s' : State U} {a : Action U} (h : step M B s a = some s') :
    (∃ choice, a = .choose choice ∧ s' = chooseResult s choice) ∨
      ∃ index job shown, a = .finish index ∧ s.inFlight[index]? = some job ∧
        result M B job = some shown ∧
        s' = { s with detection := some shown, inFlight := s.inFlight.eraseIdx index } := by
  cases a with
  | choose choice => exact Or.inl ⟨choice, rfl, (Option.some.inj h).symm⟩
  | finish index =>
    obtain ⟨job, hjob, h⟩ := Option.bind_eq_some_iff.mp h
    obtain ⟨shown, hshown, h⟩ := Option.bind_eq_some_iff.mp h
    exact Or.inr ⟨index, job, shown, rfl, hjob, hshown, (Option.some.inj h).symm⟩

/-- What the actions so far say of a state. -/
structure History (M : Machine) (B : Build) (actions : List (Action U)) (s : State U)
    (landed : List (Inspection U)) : Prop where
  accounts : Jobs.Accounts (result M B) s.board (chosen actions) landed
  selected_eq : s.selected = (choices actions).getLast?.join.map Inspection.uri
  inOrder : (∀ index, .finish index ∈ actions → index = 0) →
    Jobs.InOrder s.board (chosen actions) landed

theorem choices_choose (actions : List (Action U)) (choice : Option (Inspection U)) :
    choices (actions ++ [.choose choice]) = choices actions ++ [choice] := List.filterMap_append

theorem choices_finish (actions : List (Action U)) (index : Nat) :
    choices (actions ++ [.finish index]) = choices actions :=
  List.filterMap_append.trans (List.append_nil _)

theorem chosen_choose (actions : List (Action U)) (choice : Option (Inspection U)) :
    chosen (actions ++ [.choose choice]) = chosen actions ++ choice.toList := by
  rw [chosen, choices_choose, List.reduceOption_append, List.reduceOption_singleton]
  rfl

theorem chosen_finish (actions : List (Action U)) (index : Nat) :
    chosen (actions ++ [.finish index]) = chosen actions :=
  congrArg List.reduceOption (choices_finish actions index)

theorem History.step {actions : List (Action U)} {s s' : State U} {a : Action U}
    (h : ∃ landed, History M B actions s landed) (hstep : step M B s a = some s') :
    ∃ landed, History M B (actions ++ [a]) s' landed := by
  obtain ⟨landed, haccounts, hselected, horder⟩ := h
  have hbefore : (∀ index, .finish index ∈ actions ++ [a] → index = 0) →
      Jobs.InOrder s.board (chosen actions) landed :=
    fun hall => horder fun index hmem => hall index (List.mem_append_left _ hmem)
  rcases step_cases hstep with ⟨choice, rfl, rfl⟩ | ⟨index, job, shown, rfl, hjob, hshown, rfl⟩
  · have hlast : (chooseResult s choice).selected =
        (choices (actions ++ [.choose choice])).getLast?.join.map Inspection.uri := by
      rw [choices_choose, List.getLast?_concat]
      cases choice <;> rfl
    refine ⟨landed, ?_, hlast, fun hall => ?_⟩
    · rw [chosen_choose]
      cases choice with
      | none =>
        rw [Option.toList_none, List.append_nil]
        exact haccounts
      | some job => exact haccounts.launch job
    · rw [chosen_choose]
      cases choice with
      | none =>
        rw [Option.toList_none, List.append_nil]
        exact hbefore hall
      | some job => exact (hbefore hall).launch job
  · refine ⟨landed ++ [job], ?_, ?_, fun hall => ?_⟩
    · rw [chosen_finish]
      exact haccounts.land hjob hshown
    · rw [choices_finish]
      exact hselected
    · obtain rfl := hall index (List.mem_append_right _ List.mem_cons_self)
      rw [chosen_finish]
      exact (hbefore hall).land hjob shown

theorem Runs.history {actions : List (Action U)} {s : State U} (h : Runs M B actions s) :
    ∃ landed, History M B actions s landed := by
  refine Reaches.invariant (I := fun actions s => ∃ landed, History M B actions s landed)
    ⟨[], Jobs.Accounts.start, rfl, fun _ => Jobs.InOrder.start⟩ ?_ h
  intro actions s a s' hs hstep
  exact History.step hs hstep

end Run

/-! ### What is on the screen -/

section Screen

variable {M : Machine} {B : Build}

/-- The card of every inspection, and none takes the process down. -/
theorem result_eq (job : Inspection U) :
    result M B job = some (couldNotInspect (thrown M job.document)) := by
  rw [result, card_eq]

theorem step_finish {s : State U} {index : Nat} {job : Inspection U}
    (hjob : s.inFlight[index]? = some job) :
    step M B s (.finish index) =
      some { s with
        detection := some (couldNotInspect (thrown M job.document))
        inFlight := s.inFlight.eraseIdx index } := by
  simp only [step, hjob, result_eq, Option.bind_eq_bind, Option.bind_some, Option.pure_def]

/-- Two inspections, of which the second comes back first. -/
theorem second_first (first second : Inspection U) :
    Runs M B [.choose (some first), .choose (some second), .finish 1]
      ⟨some second.uri, some (couldNotInspect (thrown M second.document)), [first]⟩ := by
  have hchosen : Runs M B [.choose (some first)] ⟨some first.uri, none, [first]⟩ :=
    .step .start rfl
  have hboth : Runs M B [.choose (some first), .choose (some second)]
      ⟨some second.uri, none, [first, second]⟩ := .step hchosen rfl
  exact .step hboth (step_finish rfl)

/-- Out of order the card stays behind the selection: the first of two inspections
    comes back last. -/
theorem overtaken (first second : Inspection U) :
    Runs M B [.choose (some first), .choose (some second), .finish 1, .finish 0]
      ⟨some second.uri, some (couldNotInspect (thrown M first.document)), []⟩ :=
  .step (second_first first second) (step_finish rfl)

theorem in_turn (first second : Inspection U) :
    Runs M B [.choose (some first), .choose (some second), .finish 0, .finish 0]
      ⟨some second.uri, some (couldNotInspect (thrown M second.document)), []⟩ := by
  have hchosen : Runs M B [.choose (some first)] ⟨some first.uri, none, [first]⟩ :=
    .step .start rfl
  have hboth : Runs M B [.choose (some first), .choose (some second)]
      ⟨some second.uri, none, [first, second]⟩ := .step hchosen rfl
  have hone : Runs M B [.choose (some first), .choose (some second), .finish 0]
      ⟨some second.uri, some (couldNotInspect (thrown M first.document)), [second]⟩ :=
    .step hboth (step_finish rfl)
  exact .step hone (step_finish rfl)

/-- A machine that finds every function but the one that is missing. -/
def plainMachine : Machine where
  characters := .ascii
  unsatisfied _ := ⟨some ("No implementation found for java.lang.String " ++
    "com.djnakum.imgtools.NativeEngine.inspectFile(int, long)")⟩
  allocates _ := true
  quoted text := "\"" ++ text ++ "\""

def payload : Inspection Nat :=
  ⟨7, ⟨.ok (some ⟨3, 4, .ok 4, [0x43, 0x72, 0x41, 0x55], []⟩), .ok (), [], [], .ok ()⟩⟩

/-- A document that is open, but whose size cannot be told. -/
def sizeless : Inspection Nat :=
  ⟨8, ⟨.ok (some ⟨4, -1, .error ⟨some "Input/output error"⟩, [], []⟩), .ok (), [], [], .ok ()⟩⟩

/-- **In order the card is that of the document selected.** When inspections come back
    in the order in which they were started and none is under way, the card says what was
    thrown for the document that was chosen last. -/
theorem activity_inOrder {actions : List (Action U)} {s : State U} (hrun : Runs M B actions s)
    (horder : ∀ index, .finish index ∈ actions → index = 0) (hidle : s.inFlight = [])
    {job : Inspection U} (hlast : (choices actions).getLast? = some (some job)) :
    s.selected = some job.uri ∧
      s.detection = some (couldNotInspect (thrown M job.document)) := by
  obtain ⟨landed, haccounts, hselected, hinOrder⟩ := hrun.history
  have hchosen : ∃ front, chosen actions = front ++ [job] := by
    obtain ⟨front, hfront⟩ := List.getLast?_eq_some_iff.mp hlast
    exact ⟨front.reduceOption, by rw [chosen, hfront, List.reduceOption_append]; rfl⟩
  obtain ⟨front, hfront⟩ := hchosen
  rw [hfront] at haccounts hinOrder
  obtain ⟨shown, hcell, hresult⟩ := (hinOrder horder).idle hidle haccounts
  refine ⟨?_, hcell.trans (hresult.symm.trans (result_eq job))⟩
  rw [hselected, hlast]
  rfl

/-- Both come back, the one that was chosen last after the other. -/
theorem activity_inOrder_payload :
    some 8 = some sizeless.uri ∧ some (Detection.mk "Could not inspect file" "Input/output error") =
      some (couldNotInspect (thrown plainMachine sizeless.document)) :=
  activity_inOrder (in_turn (B := .wide .release) payload sizeless) (by simp) rfl rfl

end Screen

end MainActivity

end ImgTools
