import Mathlib.Data.List.Basic

/-!
# Runs of a step function

A machine is a step `σ → ι → σ × List ο`: a state and an input give the next
state and the outputs of that one step. `run` folds it over a list of inputs,
keeping the outputs step by step. `Guarded` says that every input meets a
condition on the inputs before it and on the state it is given to. The rules
proved here:

* `run_invariant`: what a guarded step preserves, a guarded run preserves; the
  invariant also reads the inputs and the outputs so far (`invariant_run` is the
  rule for a whole run);
* `run_simulates`: a step-by-step simulation gives equal outputs and related
  final states;
* `run_projects`: where each step of a machine is some steps of a part of it, or none, a
  run of the machine is a run of the part;
* `run_rank`: where an invariant keeps a rank from growing and every step of one thread
  lowers it, so many steps of that thread bring it to zero, in any order of steps;
* `mem_outputs`: an output of a run is an output of one of its steps;
* `guarded_iff_forall`: the guard of a run is the guard of each of its inputs;
* `guarded_congr`: two guards that agree wherever an invariant holds are the same
  guard, if either of them keeps the invariant;
* `run_map`, `guarded_map`: renaming states, inputs and outputs commutes with
  running.
-/

namespace TradePlat.Runs

variable {σ τ ι κ ο π : Type}

/-- The state after the inputs, and the outputs of each step in turn. -/
def run (step : σ → ι → σ × List ο) : σ → List ι → σ × List (List ο)
  | s, [] => (s, [])
  | s, i :: is =>
    ((run step (step s i).1 is).1, (step s i).2 :: (run step (step s i).1 is).2)

/-- All outputs of the run, in order. -/
def outputs (step : σ → ι → σ × List ο) (s : σ) (is : List ι) : List ο :=
  (run step s is).2.flatten

/-- Every input of the run meets `ok`, given the inputs before it and the state
it is given to. The run continues one that has read `past`. -/
def Guarded (step : σ → ι → σ × List ο) (ok : List ι → σ → ι → Prop) :
    List ι → σ → List ι → Prop
  | _, _, [] => True
  | past, s, i :: is => ok past s i ∧ Guarded step ok (past ++ [i]) (step s i).1 is

instance decidableGuarded (step : σ → ι → σ × List ο) (ok : List ι → σ → ι → Prop)
    [∀ past s i, Decidable (ok past s i)] :
    ∀ past s is, Decidable (Guarded step ok past s is)
  | _, _, [] => .isTrue trivial
  | past, s, i :: is =>
    have := decidableGuarded step ok (past ++ [i]) (step s i).1 is
    inferInstanceAs (Decidable (_ ∧ _))

section
variable (step : σ → ι → σ × List ο) (s : σ)

theorem run_append (is js : List ι) :
    run step s (is ++ js) =
      ((run step (run step s is).1 js).1,
        (run step s is).2 ++ (run step (run step s is).1 js).2) := by
  induction is generalizing s with
  | nil => simp [run]
  | cons i is ih => simp [run, ih]

theorem run_append_state (is js : List ι) :
    (run step s (is ++ js)).1 = (run step (run step s is).1 js).1 := by
  rw [run_append]

@[simp] theorem outputs_nil : outputs step s [] = [] := rfl

@[simp] theorem outputs_cons (i : ι) (is : List ι) :
    outputs step s (i :: is) = (step s i).2 ++ outputs step (step s i).1 is := by
  simp [outputs, run]

theorem outputs_append (is js : List ι) :
    outputs step s (is ++ js) = outputs step s is ++ outputs step (run step s is).1 js := by
  simp [outputs, run_append]

theorem mem_outputs {is : List ι} {o : ο} :
    o ∈ outputs step s is ↔
      ∃ before i after, is = before ++ i :: after ∧ o ∈ (step (run step s before).1 i).2 := by
  constructor
  · intro h
    induction is generalizing s with
    | nil => simp at h
    | cons i is ih =>
      rw [outputs_cons, List.mem_append] at h
      rcases h with hnow | hlater
      · exact ⟨[], i, is, rfl, hnow⟩
      · obtain ⟨before, j, after, rfl, hout⟩ := ih _ hlater
        exact ⟨i :: before, j, after, rfl, hout⟩
  · rintro ⟨before, i, after, rfl, hout⟩
    rw [outputs_append, outputs_cons, List.mem_append, List.mem_append]
    exact Or.inr (Or.inl hout)

theorem guarded_append (ok : List ι → σ → ι → Prop) (past is js : List ι) :
    Guarded step ok past s (is ++ js) ↔
      Guarded step ok past s is ∧ Guarded step ok (past ++ is) (run step s is).1 js := by
  induction is generalizing past s with
  | nil => simp [Guarded, run]
  | cons i is ih => simp [Guarded, run, ih, and_assoc]

end

theorem Guarded.mono {step : σ → ι → σ × List ο} {ok ok' : List ι → σ → ι → Prop}
    (himp : ∀ past s i, ok past s i → ok' past s i) {past : List ι} {s : σ} {is : List ι}
    (h : Guarded step ok past s is) : Guarded step ok' past s is := by
  induction is generalizing past s with
  | nil => trivial
  | cons i is ih => exact ⟨himp _ _ _ h.1, ih h.2⟩

theorem guarded_true (step : σ → ι → σ × List ο) (past : List ι) (s : σ) (is : List ι) :
    Guarded step (fun _ _ _ => True) past s is := by
  induction is generalizing past s with
  | nil => trivial
  | cons i is ih => exact ⟨trivial, ih _ _⟩

/-- **Invariant rule.** The invariant reads the inputs and the outputs so far. -/
theorem run_invariant {step : σ → ι → σ × List ο} {ok : List ι → σ → ι → Prop}
    (Inv : List ι → List ο → σ → Prop)
    (hstep : ∀ past out s i, Inv past out s → ok past s i →
      Inv (past ++ [i]) (out ++ (step s i).2) (step s i).1)
    {past : List ι} {out : List ο} {s : σ} {is : List ι}
    (h₀ : Inv past out s) (hg : Guarded step ok past s is) :
    Inv (past ++ is) (out ++ outputs step s is) (run step s is).1 := by
  induction is generalizing past out s with
  | nil => simpa [outputs, run] using h₀
  | cons i is ih =>
    have h := ih (hstep past out s i h₀ hg.1) hg.2
    simpa [run, List.append_assoc] using h

theorem invariant_run {step : σ → ι → σ × List ο} {ok : List ι → σ → ι → Prop}
    (Inv : List ι → List ο → σ → Prop)
    (hstep : ∀ past out s i, Inv past out s → ok past s i →
      Inv (past ++ [i]) (out ++ (step s i).2) (step s i).1)
    {s : σ} {is : List ι} (h₀ : Inv [] [] s) (hg : Guarded step ok [] s is) :
    Inv is (outputs step s is) (run step s is).1 :=
  run_invariant Inv hstep h₀ hg

/-- **Simulation rule.** Related states stay related, and each step gives the
same outputs up to `f`. -/
theorem run_simulates {step : σ → ι → σ × List ο} (step' : τ → ι → τ × List π)
    {ok : List ι → σ → ι → Prop} (R : List ι → σ → τ → Prop) (f : List ο → List π)
    (hstep : ∀ past s t i, R past s t → ok past s i →
      R (past ++ [i]) (step s i).1 (step' t i).1 ∧ f (step s i).2 = (step' t i).2)
    {past : List ι} {s : σ} {t : τ} {is : List ι}
    (h₀ : R past s t) (hg : Guarded step ok past s is) :
    R (past ++ is) (run step s is).1 (run step' t is).1 ∧
      (run step s is).2.map f = (run step' t is).2 := by
  induction is generalizing past s t with
  | nil => exact ⟨by simpa [run] using h₀, rfl⟩
  | cons i is ih =>
    obtain ⟨hR, hout⟩ := hstep past s t i h₀ hg.1
    obtain ⟨hR', hout'⟩ := ih hR hg.2
    exact ⟨by simpa [run] using hR', by simp [run, hout, hout']⟩

/-- **Projection rule.** -/
theorem run_projects {step : σ → ι → σ × List ο} {step' : τ → κ → τ × List π} {f : σ → τ}
    {g : ο → List π}
    (hstep : ∀ s i, ∃ js, (run step' (f s) js).1 = f (step s i).1 ∧
      outputs step' (f s) js = (step s i).2.flatMap g)
    (s : σ) (is : List ι) :
    ∃ js, (run step' (f s) js).1 = f (run step s is).1 ∧
      outputs step' (f s) js = (outputs step s is).flatMap g := by
  induction is generalizing s with
  | nil => exact ⟨[], rfl, rfl⟩
  | cons i is ih =>
    obtain ⟨js, hstate, hout⟩ := hstep s i
    obtain ⟨more, hstate', hout'⟩ := ih (step s i).1
    refine ⟨js ++ more, ?_, ?_⟩
    · rw [run_append, hstate]
      exact hstate'
    · rw [outputs_append, hstate, hout, hout', outputs_cons, List.flatMap_append]

/-- **Ranking rule.** -/
theorem run_rank (step : σ → ι → σ × List ο) (Inv : List ο → σ → Prop) (own : ι → Bool)
    (rank : σ → Nat)
    (hstep : ∀ out s i, Inv out s → Inv (out ++ (step s i).2) (step s i).1 ∧
      rank (step s i).1 ≤ rank s - (own i).toNat)
    {out : List ο} {s : σ} (h₀ : Inv out s) (is : List ι) :
    Inv (out ++ outputs step s is) (run step s is).1 ∧
      rank (run step s is).1 ≤ rank s - is.countP own := by
  induction is generalizing out s with
  | nil => exact ⟨by simpa [outputs, run] using h₀, Nat.le_refl _⟩
  | cons i is ih =>
    obtain ⟨hinv, hrank⟩ := hstep out s i h₀
    obtain ⟨hend, hrest⟩ := ih hinv
    refine ⟨?_, ?_⟩
    · rw [outputs_cons, ← List.append_assoc]
      exact hend
    · have hcount : (i :: is).countP own = is.countP own + (own i).toNat := by
        rw [List.countP_cons]
        cases own i <;> rfl
      change rank (run step (step s i).1 is).1 ≤ _
      omega

/-- **Renaming rule.** -/
theorem run_map {step : σ → ι → σ × List ο} {step' : τ → κ → τ × List π}
    {f : σ → τ} {g : ι → κ} {h : ο → π}
    (hstep : ∀ s i, step' (f s) (g i) = (f (step s i).1, (step s i).2.map h))
    (s : σ) (is : List ι) :
    run step' (f s) (is.map g) =
      (f (run step s is).1, (run step s is).2.map (List.map h)) := by
  induction is generalizing s with
  | nil => rfl
  | cons i is ih => simp [run, hstep, ih]

theorem guarded_map {step : σ → ι → σ × List ο} {step' : τ → κ → τ × List π}
    {ok : List ι → σ → ι → Prop} {ok' : List κ → τ → κ → Prop}
    {f : σ → τ} {g : ι → κ} {h : ο → π}
    (hstep : ∀ s i, step' (f s) (g i) = (f (step s i).1, (step s i).2.map h))
    (hok : ∀ past s i, ok' (past.map g) (f s) (g i) ↔ ok past s i)
    (past : List ι) (s : σ) (is : List ι) :
    Guarded step' ok' (past.map g) (f s) (is.map g) ↔ Guarded step ok past s is := by
  induction is generalizing past s with
  | nil => rfl
  | cons i is ih =>
    have hpast : past.map g ++ [g i] = (past ++ [i]).map g := by simp
    simp only [List.map_cons, Guarded, hok, hstep, hpast, ih]

/-- The guard, input by input. -/
theorem guarded_iff_forall {step : σ → ι → σ × List ο} {ok : List ι → σ → ι → Prop}
    {past : List ι} {s : σ} {is : List ι} :
    Guarded step ok past s is ↔
      ∀ before i after, is = before ++ i :: after → ok (past ++ before) (run step s before).1 i := by
  constructor
  · rintro h before i after rfl
    rw [guarded_append] at h
    exact h.2.1
  · intro h
    induction is generalizing past s with
    | nil => trivial
    | cons i is ih =>
      refine ⟨by simpa [run] using h [] i is rfl, ih fun before j after heq => ?_⟩
      simpa [run] using h (i :: before) j after (by rw [heq, List.cons_append])

/-- **Guard rule.** The guards agree under an invariant that guarded steps keep. -/
theorem guarded_congr {step : σ → ι → σ × List ο} {ok ok' : List ι → σ → ι → Prop}
    (Inv : σ → Prop) (hiff : ∀ past s i, Inv s → (ok past s i ↔ ok' past s i))
    (hstep : ∀ past s i, Inv s → ok past s i → Inv (step s i).1)
    {past : List ι} {s : σ} {is : List ι} (h₀ : Inv s) :
    Guarded step ok past s is ↔ Guarded step ok' past s is := by
  induction is generalizing past s with
  | nil => rfl
  | cons i is ih =>
    constructor
    · rintro ⟨hok, hrest⟩
      exact ⟨(hiff past s i h₀).mp hok, (ih (hstep past s i h₀ hok)).mp hrest⟩
    · rintro ⟨hok', hrest⟩
      have hok := (hiff past s i h₀).mpr hok'
      exact ⟨hok, (ih (hstep past s i h₀ hok)).mpr hrest⟩

/-- What the guard says of the inputs alone. -/
theorem Guarded.forall_mem {step : σ → ι → σ × List ο} {ok : List ι → σ → ι → Prop}
    {q : ι → Prop} (hq : ∀ past s i, ok past s i → q i) {past : List ι} {s : σ} {is : List ι}
    (h : Guarded step ok past s is) : ∀ i ∈ is, q i := by
  induction is generalizing past s with
  | nil => simp
  | cons i is ih =>
    intro j hj
    rcases List.mem_cons.mp hj with rfl | hj
    · exact hq _ _ _ h.1
    · exact ih h.2 j hj

end TradePlat.Runs
