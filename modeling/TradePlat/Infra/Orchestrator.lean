import Mathlib.Logic.Function.Basic
import TradePlat.Lib.Runs

/-!
# Executions of the orchestrator (`orchestrator.py`, `api.py`)

The upload API starts one execution of `BenchmarkOrchestrator.run` for each upload and
does not wait for it, and all executions use the pod name `active-contestant-sandbox`. A
step is one call of one execution. A call answers by the state of the cluster, or raises
for reasons of its own; what `run` does before `spawn_contestant_sandbox_pod` is one step.
A pod that is deleted has its name until the cluster removes it.
-/

namespace TradePlat.Orchestrator
open Runs

variable {ι : Type}

inductive Phase where
  | pending
  | running
  | succeeded
  | failed
  | unknown
  deriving DecidableEq, Repr

/-- The pod of the shared name. No code reads who created it. -/
structure Pod (ι : Type) where
  creator : ι
  phase : Phase
  terminating : Bool
  deriving DecidableEq, Repr

inductive Error where
  | apiException (status : Nat)
  | timeoutError (message : String)
  | exception
  deriving DecidableEq, Repr

/-- What an execution calls next. `cleanup` and `ended` hold what the `try` raised. -/
inductive Run where
  | connect
  | setup
  | deleteOldSandboxPod
  | pollUntilGone
  | createPod
  | waitForAgentCompletion
  | cleanup (raised : Option Error)
  | ended (raised : Option Error)
  deriving DecidableEq, Repr

structure State (ι : Type) where
  pod : Option (Pod ι)
  runs : ι → Run

def State.init : State ι := ⟨none, fun _ => .connect⟩

/-- The next call of an execution, which raises `fault` if there is one; the deadline of
an execution; and what the cluster does. -/
inductive Input (ι : Type) where
  | call (r : ι) (fault : Option Error)
  | timeout (r : ι)
  | phase (phase : Phase)
  | remove
  deriving DecidableEq, Repr

/-- `deleted` is a delete of a pod that was there, `completed` the return of
`wait_for_agent_completion` behind the read of a finished pod. -/
inductive Output (ι : Type) where
  | deleted (r : ι) (pod : Pod ι)
  | completed (r : ι) (pod : Pod ι)
  deriving DecidableEq, Repr

/-- What a read or a delete of the name answers. -/
def State.answer (s : State ι) : Option Error → Except Error (Pod ι)
  | some error => .error error
  | none =>
    match s.pod with
    | some pod => .ok pod
    | none => .error (.apiException 404)

variable [DecidableEq ι]

def State.move (s : State ι) (r : ι) (run : Run) : State ι :=
  { s with runs := Function.update s.runs r run }

/-- The `finally` of `run`, with `keep_resources`. -/
def State.leave (s : State ι) (keepResources : ι → Bool) (r : ι) (raised : Option Error) :
    State ι :=
  s.move r (if keepResources r then .ended raised else .cleanup raised)

/-- The delete of the pod by `r`, which goes on at `run`. -/
def State.delete (s : State ι) (r : ι) (pod : Pod ι) (run : Run) : State ι × List (Output ι) :=
  ({ s with pod := some { pod with terminating := true } }.move r run, [.deleted r pod])

def timedOut : Error :=
  .timeoutError "Evaluation target exceeded assigned contest duration bounds."

/-- The next call of `r`. -/
def callStep (keepResources : ι → Bool) (s : State ι) (r : ι) (fault : Option Error) :
    State ι × List (Output ι) :=
  match s.runs r with
  | .connect =>
    match fault with
    | none => (s.move r .setup, [])
    | some error => (s.move r (.ended (some error)), [])
  | .setup =>
    match fault with
    | none => (s.move r .deleteOldSandboxPod, [])
    | some error => (s.leave keepResources r (some error), [])
  | .deleteOldSandboxPod =>
    match s.answer fault with
    | .ok pod => s.delete r pod .pollUntilGone
    | .error (.apiException 404) => (s.move r .pollUntilGone, [])
    | .error error => (s.leave keepResources r (some error), [])
  | .pollUntilGone =>
    match s.answer fault with
    | .ok _ => (s, [])
    | .error (.apiException 404) => (s.move r .createPod, [])
    | .error (.apiException _) => (s, [])
    | .error error => (s.leave keepResources r (some error), [])
  | .createPod =>
    match fault, s.pod with
    | some error, _ => (s.leave keepResources r (some error), [])
    | none, some _ => (s.leave keepResources r (some (.apiException 409)), [])
    | none, none =>
      ({ s with pod := some ⟨r, .pending, false⟩ }.move r .waitForAgentCompletion, [])
  | .waitForAgentCompletion =>
    match s.answer fault with
    | .ok pod =>
      if pod.phase = .succeeded ∨ pod.phase = .failed then
        (s.leave keepResources r none, [.completed r pod])
      else (s, [])
    | .error error => (s.leave keepResources r (some error), [])
  | .cleanup raised =>
    match s.answer fault with
    | .ok pod => s.delete r pod (.ended raised)
    | .error (.apiException 404) => (s.move r (.ended raised), [])
    | .error error => (s.move r (.ended (some error)), [])
  | .ended _ => (s, [])

def step (keepResources : ι → Bool) (s : State ι) : Input ι → State ι × List (Output ι)
  | .call r fault => callStep keepResources s r fault
  | .timeout r =>
    match s.runs r with
    | .waitForAgentCompletion => (s.leave keepResources r (some timedOut), [])
    | _ => (s, [])
  | .phase phase => ({ s with pod := s.pod.map fun pod => { pod with phase := phase } }, [])
  | .remove => ({ s with pod := s.pod.filter fun pod => !pod.terminating }, [])

/-! ## Evaluations -/

/-- The evaluation of `q` has begun with its pod and has not finished. -/
def State.Evaluating (s : State ι) (q : ι) : Prop := s.runs q = .waitForAgentCompletion

/-- The next call deletes the pod, if there is one. -/
def Run.deletes : Run → Bool
  | .deleteOldSandboxPod | .cleanup _ => true
  | _ => false

/-- A step deletes no pod of another execution that is evaluated, and completes no wait on
the pod of another one. -/
def Undisturbed (keepResources : ι → Bool) (s : State ι) (i : Input ι) : Prop :=
  ∀ o ∈ (step keepResources s i).2, match o with
    | .deleted r pod => pod.creator ≠ r → ¬ s.Evaluating pod.creator
    | .completed r pod => pod.creator = r

/-- A delete call is made while no other execution is evaluated. -/
def Alone (s : State ι) : Input ι → Prop
  | .call r none => (s.runs r).deletes = true → ∀ q, q ≠ r → ¬ s.Evaluating q
  | _ => True

/-- An execution that is evaluated has its own pod, which nobody deleted. -/
def Owned (s : State ι) : Prop :=
  ∀ q, s.Evaluating q → ∃ phase, s.pod = some ⟨q, phase, false⟩

/-! ## Steps, one by one -/

/-- What a call of an execution can do. -/
inductive Calls (s : State ι) (r : ι) (fault : Option Error) :
    State ι × List (Output ι) → Prop where
  | stays : Calls s r fault (s, [])
  | moves (run : Run) : run ≠ .waitForAgentCompletion → Calls s r fault (s.move r run, [])
  | creates : s.pod = none →
      Calls s r fault ({ s with pod := some ⟨r, .pending, false⟩ }.move r .waitForAgentCompletion, [])
  | deletes (pod : Pod ι) (run : Run) : (s.runs r).deletes = true → fault = none →
      s.pod = some pod → run ≠ .waitForAgentCompletion → Calls s r fault (s.delete r pod run)
  | completes (pod : Pod ι) (run : Run) : s.Evaluating r → s.pod = some pod →
      run ≠ .waitForAgentCompletion → Calls s r fault (s.move r run, [.completed r pod])

section Steps
variable {keepResources : ι → Bool} {s : State ι} {r q : ι} {fault : Option Error}

@[simp] theorem move_self (run : Run) : (s.move r run).runs r = run := Function.update_self ..

theorem move_of_ne (run : Run) (h : q ≠ r) : (s.move r run).runs q = s.runs q :=
  Function.update_of_ne h ..

theorem leave_moves (keepResources : ι → Bool) (s : State ι) (r : ι) (raised : Option Error) :
    ∃ run, run ≠ .waitForAgentCompletion ∧ s.leave keepResources r raised = s.move r run := by
  refine ⟨_, ?_, rfl⟩
  split <;> nofun

theorem Calls.leaves (raised : Option Error) :
    Calls s r fault (s.leave keepResources r raised, []) := by
  obtain ⟨run, hrun, heq⟩ := leave_moves keepResources s r raised
  rw [heq]
  exact .moves run hrun

omit [DecidableEq ι] in
theorem answer_ok {pod : Pod ι} (h : s.answer fault = .ok pod) :
    fault = none ∧ s.pod = some pod := by
  cases fault with
  | some error => cases h
  | none =>
    refine ⟨rfl, ?_⟩
    cases hpod : s.pod with
    | none => simp [State.answer, hpod] at h
    | some pod' => simpa [State.answer, hpod] using h

theorem callStep_cases (keepResources : ι → Bool) (s : State ι) (r : ι) (fault : Option Error) :
    Calls s r fault (callStep keepResources s r fault) := by
  unfold callStep
  cases hr : s.runs r with
  | connect =>
    cases fault with
    | none => exact .moves _ nofun
    | some error => exact .moves _ nofun
  | setup =>
    cases fault with
    | none => exact .moves _ nofun
    | some error => exact .leaves _
  | deleteOldSandboxPod =>
    dsimp only
    split
    · rename_i pod hanswer
      obtain ⟨hfault, hpod⟩ := answer_ok hanswer
      exact .deletes pod _ (by rw [hr]; rfl) hfault hpod nofun
    · exact .moves _ nofun
    · exact .leaves _
  | pollUntilGone =>
    dsimp only
    split
    · exact .stays
    · exact .moves _ nofun
    · exact .stays
    · exact .leaves _
  | createPod =>
    dsimp only
    split
    · exact .leaves _
    · exact .leaves _
    · rename_i hpod
      exact .creates hpod
  | waitForAgentCompletion =>
    dsimp only
    split
    · rename_i pod hanswer
      split
      · obtain ⟨run, hrun, heq⟩ := leave_moves keepResources s r none
        rw [heq]
        exact .completes pod run hr (answer_ok hanswer).2 hrun
      · exact .stays
    · exact .leaves _
  | cleanup raised =>
    dsimp only
    split
    · rename_i pod hanswer
      obtain ⟨hfault, hpod⟩ := answer_ok hanswer
      exact .deletes pod _ (by rw [hr]; rfl) hfault hpod nofun
    · exact .moves _ nofun
    · exact .moves _ nofun
  | ended raised => exact .stays

/-- A delete call finds the pod that is there. -/
theorem callStep_deletes (keepResources : ι → Bool) {pod : Pod ι}
    (hdeletes : (s.runs r).deletes = true) (hpod : s.pod = some pod) :
    .deleted r pod ∈ (callStep keepResources s r none).2 := by
  have hanswer : s.answer none = .ok pod := by simp only [State.answer, hpod]
  unfold callStep
  cases hr : s.runs r with
  | deleteOldSandboxPod =>
    simp only [hanswer]
    exact List.mem_cons_self
  | cleanup raised =>
    simp only [hanswer]
    exact List.mem_cons_self
  | connect | setup | pollUntilGone | createPod | waitForAgentCompletion | ended =>
    rw [hr] at hdeletes
    cases hdeletes

/-- Only `r` is somewhere else behind its move. -/
theorem evaluating_move {run : Run} (h : (s.move r run).Evaluating q) :
    (q = r ∧ run = .waitForAgentCompletion) ∨ (q ≠ r ∧ s.Evaluating q) := by
  by_cases hq : q = r
  · subst hq
    exact Or.inl ⟨rfl, (move_self run).symm.trans h⟩
  · exact Or.inr ⟨hq, (move_of_ne run hq).symm.trans h⟩

end Steps

/-! ## The owner of the pod -/

section Owned
variable {keepResources : ι → Bool} {s : State ι}

omit [DecidableEq ι] in
theorem owned_init : Owned (State.init : State ι) := fun _ h => nomatch h

theorem Owned.moves (h : Owned s) (r : ι) {run : Run} (hrun : run ≠ .waitForAgentCompletion) :
    Owned (s.move r run) := by
  intro q hq
  rcases evaluating_move hq with ⟨-, heq⟩ | ⟨-, hq⟩
  · exact absurd heq hrun
  · exact h q hq

/-- Under the invariant, the undisturbed steps are those whose delete calls are made alone. -/
theorem undisturbed_iff_alone (h : Owned s) (i : Input ι) :
    Undisturbed keepResources s i ↔ Alone s i := by
  cases i with
  | timeout r =>
    refine ⟨fun _ => trivial, fun _ o ho => ?_⟩
    simp only [step] at ho
    split at ho <;> cases ho
  | phase phase => exact ⟨fun _ => trivial, fun _ o ho => nomatch ho⟩
  | remove => exact ⟨fun _ => trivial, fun _ o ho => nomatch ho⟩
  | call r fault =>
    constructor
    · intro hundisturbed
      cases fault with
      | some error => trivial
      | none =>
        intro hdeletes q hq heval
        obtain ⟨phase, hpod⟩ := h q heval
        exact hundisturbed _ (callStep_deletes keepResources hdeletes hpod) hq heval
    · intro halone o ho
      change o ∈ (callStep keepResources s r fault).2 at ho
      have hcases := callStep_cases keepResources s r fault
      generalize callStep keepResources s r fault = result at ho hcases
      cases hcases with
      | stays => cases ho
      | moves run hrun => cases ho
      | creates hpod => cases ho
      | deletes pod run hdeletes hfault hpod hrun =>
        cases List.mem_singleton.mp ho
        subst hfault
        exact fun hne => halone hdeletes pod.creator hne
      | completes pod run heval hpod hrun =>
        cases List.mem_singleton.mp ho
        obtain ⟨phase, hown⟩ := h r heval
        obtain rfl := Option.some.inj (hpod.symm.trans hown)
        rfl

theorem Owned.next (h : Owned s) {i : Input ι} (halone : Alone s i) :
    Owned (step keepResources s i).1 := by
  cases i with
  | timeout r =>
    simp only [step]
    split
    · obtain ⟨run, hrun, heq⟩ := leave_moves keepResources s r (some timedOut)
      rw [heq]
      exact h.moves r hrun
    · exact h
  | phase phase =>
    intro q hq
    obtain ⟨phase', hpod⟩ := h q hq
    exact ⟨phase, by simp only [step, hpod, Option.map_some]⟩
  | remove =>
    intro q hq
    obtain ⟨phase, hpod⟩ := h q hq
    exact ⟨phase, by simp only [step, hpod]; rfl⟩
  | call r fault =>
    change Owned (callStep keepResources s r fault).1
    have hcases := callStep_cases keepResources s r fault
    generalize callStep keepResources s r fault = result at hcases
    cases hcases with
    | stays => exact h
    | moves run hrun => exact h.moves r hrun
    | creates hpod =>
      intro q hq
      rcases evaluating_move hq with ⟨rfl, -⟩ | ⟨-, hq⟩
      · exact ⟨.pending, rfl⟩
      · obtain ⟨phase, hown⟩ := h q hq
        cases hpod.symm.trans hown
    | deletes pod run hdeletes hfault hpod hrun =>
      subst hfault
      intro q hq
      rcases evaluating_move hq with ⟨-, heq⟩ | ⟨hne, hq⟩
      · exact absurd heq hrun
      · exact absurd hq (halone hdeletes q hne)
    | completes pod run heval hpod hrun => exact h.moves r hrun

end Owned

/-- **When executions do not destroy each other.** For any number of executions and every
interleaving of their calls: no execution deletes the pod of another one that is evaluated,
and every wait that completes has read the pod of its own execution, exactly where every
delete call is made while no other execution is between its create and the end of its wait. -/
theorem undisturbed_run_iff (keepResources : ι → Bool) (inputs : List (Input ι)) :
    Guarded (step keepResources) (fun _ s i => Undisturbed keepResources s i) [] .init inputs ↔
      Guarded (step keepResources) (fun _ s i => Alone s i) [] .init inputs :=
  (guarded_congr Owned (fun _ _ i h => (undisturbed_iff_alone h i).symm)
    (fun _ _ _ h halone => h.next halone) owned_init).symm

/-- An execution spawns its pod, and a second one spawns its own while the first one waits. -/
def overlapping : List (Input Bool) :=
  List.replicate 5 (.call false none) ++ List.replicate 2 (.call true none) ++
    .call true none :: [.remove, .call true none, .call true none, .phase .succeeded,
      .call false none]

/-- The second execution deletes the pod of the first one, which completes its wait on the
pod of the second one. -/
theorem overlapping_disturbed :
    ¬ Guarded (step fun _ => false) (fun _ s i => Undisturbed (fun _ => false) s i) [] .init
        overlapping ∧
      outputs (step fun _ => false) .init overlapping =
        [.deleted true ⟨false, .pending, false⟩, .completed false ⟨true, .succeeded, false⟩] := by
  refine ⟨fun h => ?_, by decide⟩
  have hdelete := guarded_iff_forall.mp h
    (List.replicate 5 (.call false none) ++ List.replicate 2 (.call true none)) _ _ rfl
    (.deleted true ⟨false, .pending, false⟩) (by decide)
  exact hdelete (by decide) rfl

end TradePlat.Orchestrator
