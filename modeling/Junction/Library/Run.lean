import Mathlib

/-!
# Guarded runs

A system is a step function from a state and an input to the next state. A guard says which inputs
are admitted in which state. What holds at the start and is kept by every admitted step holds after
every admitted run. A view of the state in which some inputs have no effect gives the run without
these inputs. For a system whose steps also answer, a relation that every admitted step keeps, with
equal answers, makes all answers of an admitted run equal.
-/

namespace Run
open List
variable {σ ι : Type*} {step : σ → ι → σ} {guard : σ → ι → Prop}

def exec (step : σ → ι → σ) (s : σ) (inputs : List ι) : σ := inputs.foldl step s

def Admitted (step : σ → ι → σ) (guard : σ → ι → Prop) : σ → List ι → Prop
  | _, [] => True
  | s, i :: inputs => guard s i ∧ Admitted step guard (step s i) inputs

instance decidableAdmitted [∀ s i, Decidable (guard s i)] (s : σ) :
    (inputs : List ι) → Decidable (Admitted step guard s inputs)
  | [] => .isTrue trivial
  | i :: inputs =>
    have := decidableAdmitted (step s i) inputs
    inferInstanceAs (Decidable (_ ∧ _))

@[simp] theorem exec_nil (s : σ) : exec step s [] = s := rfl

@[simp] theorem exec_cons (s : σ) (i : ι) (inputs : List ι) :
    exec step s (i :: inputs) = exec step (step s i) inputs := rfl

theorem admitted_of_mem {inputs : List ι} (h : ∀ i ∈ inputs, ∀ s, guard s i) (s : σ) :
    Admitted step guard s inputs := by
  induction inputs generalizing s with
  | nil => trivial
  | cons i inputs ih =>
    exact ⟨h i mem_cons_self s, ih (fun j hj => h j (mem_cons_of_mem i hj)) _⟩

theorem admitted_of_forall (h : ∀ s i, guard s i) (s : σ) (inputs : List ι) : Admitted step guard s inputs :=
  admitted_of_mem (fun i _ s => h s i) s

theorem invariant_exec {Inv : σ → Prop} (hstep : ∀ s i, Inv s → guard s i → Inv (step s i))
    {s : σ} (hs : Inv s) {inputs : List ι} (ha : Admitted step guard s inputs) : Inv (exec step s inputs) := by
  induction inputs generalizing s with
  | nil => exact hs
  | cons i inputs ih => exact ih (hstep s i hs ha.1) ha.2

theorem invariant_run {Inv : σ → Prop} (hstep : ∀ s i, Inv s → Inv (step s i)) {s : σ} (hs : Inv s)
    (inputs : List ι) : Inv (exec step s inputs) := by
  induction inputs generalizing s with
  | nil => exact hs
  | cons i inputs ih => exact ih (hstep s i hs)

theorem relation_exec {τ : Type*} {spec : τ → ι → τ} {R : σ → τ → Prop}
    (hstep : ∀ s t i, R s t → guard s i → R (step s i) (spec t i)) {s : σ} {t : τ} (hR : R s t)
    {inputs : List ι} (ha : Admitted step guard s inputs) : R (exec step s inputs) (exec spec t inputs) := by
  induction inputs generalizing s t with
  | nil => exact hR
  | cons i inputs ih => exact ih (hstep s t i hR ha.1) ha.2

theorem Admitted.and_of_mem {guard' : ι → Prop} {s : σ} {inputs : List ι} (ha : Admitted step guard s inputs)
    (h : ∀ i ∈ inputs, guard' i) : Admitted step (fun s i => guard s i ∧ guard' i) s inputs := by
  induction inputs generalizing s with
  | nil => trivial
  | cons i inputs ih =>
    exact ⟨⟨ha.1, h i mem_cons_self⟩, ih ha.2 fun j hj => h j (mem_cons_of_mem i hj)⟩

/-- A run is seen through a view in which some inputs do nothing. As long as nothing has happened that the view
cannot hide, the run of the view without these inputs is the view of the run. -/
theorem exec_hidden {hidden : ι → Prop} [DecidablePred hidden] {v : σ → σ} {Inv Shown : σ → Prop}
    (hstep : ∀ s i, Inv s → guard s i → Shown (step s i) ∨
      (Inv (step s i) ∧ v (step s i) = if hidden i then v s else step (v s) i))
    (hshown : ∀ s i, Shown s → guard s i → Shown (step s i)) {s : σ} (hs : Inv s) {inputs : List ι}
    (ha : Admitted step guard s inputs) : Shown (exec step s inputs) ∨ (Inv (exec step s inputs) ∧
      exec step (v s) (inputs.filter (¬ hidden ·)) = v (exec step s inputs)) := by
  induction inputs generalizing s with
  | nil => exact .inr ⟨hs, rfl⟩
  | cons i inputs ih =>
    rcases hstep s i hs ha.1 with h | ⟨hinv, hview⟩
    · exact .inl (invariant_exec hshown h ha.2)
    rcases ih hinv ha.2 with h | ⟨hend, hrun⟩
    · exact .inl h
    refine .inr ⟨hend, ?_⟩
    rw [exec_cons, ← hrun, hview]
    split_ifs with hi
    · rw [filter_cons_of_neg (by simpa using hi)]
    · rw [filter_cons_of_pos (by simpa using hi), exec_cons]

theorem holds_elim {α : Type*} {P : σ → Prop} {o : Option α} {s : σ} {f : α → σ} (hs : P s)
    (hf : ∀ a, o = some a → P (f a)) : P (o.elim s f) := by
  cases o with
  | none => exact hs
  | some a => exact hf a rfl

section Answers
variable {τ ο : Type*}

def answers (step : σ → ι → ο × σ) : σ → List ι → List ο
  | _, [] => []
  | s, i :: inputs => (step s i).1 :: answers step (step s i).2 inputs

def next (step : σ → ι → ο × σ) (s : σ) (i : ι) : σ := (step s i).2

theorem answers_eq_of_simulation {step : σ → ι → ο × σ} {spec : τ → ι → ο × τ} {R : σ → τ → Prop}
    (hsim : ∀ s t i, R s t → guard s i → (step s i).1 = (spec t i).1 ∧ R (step s i).2 (spec t i).2)
    {s : σ} {t : τ} (hR : R s t) {inputs : List ι} (ha : Admitted (next step) guard s inputs) :
    answers step s inputs = answers spec t inputs ∧ R (exec (next step) s inputs) (exec (next spec) t inputs) := by
  induction inputs generalizing s t with
  | nil => exact ⟨rfl, hR⟩
  | cons i inputs ih =>
    obtain ⟨hanswer, hnext⟩ := hsim s t i hR ha.1
    obtain ⟨hrest, hend⟩ := ih hnext ha.2
    exact ⟨congrArg₂ cons hanswer hrest, hend⟩

end Answers
end Run
