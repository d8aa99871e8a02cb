import Mathlib.Algebra.GroupWithZero.Nat
import Mathlib.Data.List.Forall2

/-!
# Runs of a transition function that can stop

A step takes a state and an input to the next state and an output, or ends with a
reason. Invariants and simulations are proved for one step and hold for every run.
-/
namespace MessageBroker.TransitionRuns

universe u

section Except

variable {ε α β : Type*}

@[simp] theorem ok_bind {ε α β : Type u} (a : α) (f : α → Except ε β) :
    (Except.ok a >>= f) = f a := rfl

@[simp] theorem error_bind {ε α β : Type u} (e : ε) (f : α → Except ε β) :
    (Except.error e >>= f) = .error e := rfl

theorem bind_eq_ok {ε α β : Type u} {x : Except ε α} {f : α → Except ε β} {b : β} :
    (x >>= f) = .ok b ↔ ∃ a, x = .ok a ∧ f a = .ok b := by
  cases x <;> simp

theorem bind_eq_error {ε α β : Type u} {x : Except ε α} {f : α → Except ε β} {e : ε} :
    (x >>= f) = .error e ↔ x = .error e ∨ ∃ a, x = .ok a ∧ f a = .error e := by
  cases x <;> simp

theorem mapError_eq_ok {ε δ α : Type u} {x : Except ε α} {f : ε → δ} {a : α} :
    x.mapError f = .ok a ↔ x = .ok a := by
  cases x <;> simp [Except.mapError]

end Except

variable {σ ι ο ε : Type}

abbrev Transition (σ ι ο ε : Type) := σ → ι → Except ε (σ × ο)

variable (step : Transition σ ι ο ε)

/-- The state after a list of inputs and the output of each. -/
def run : σ → List ι → Except ε (σ × List ο)
  | s, [] => .ok (s, [])
  | s, i :: is => do
    let (s₁, o) ← step s i
    let (s₂, os) ← run s₁ is
    .ok (s₂, o :: os)

def Reachable (s₀ s : σ) : Prop := ∃ is os, run step s₀ is = .ok (s, os)

/-- The predicate holds of the start and of every state the run passes. -/
def Throughout (P : σ → Prop) : σ → List ι → Prop
  | s, [] => P s
  | s, i :: is => P s ∧ ∀ s' o, step s i = .ok (s', o) → Throughout P s' is

/-- The condition holds of every state of the run and the input it takes. -/
def EachStep (C : σ → ι → Prop) : σ → List ι → Prop
  | _, [] => True
  | s, i :: is => C s i ∧ ∀ s' o, step s i = .ok (s', o) → EachStep C s' is

instance decidableNext (s : σ) (i : ι) (Q : σ → Prop) [DecidablePred Q] :
    Decidable (∀ s' o, step s i = .ok (s', o) → Q s') :=
  match hs : step s i with
  | .error _ => isTrue (fun _ _ he => by cases he)
  | .ok (s', _) => decidable_of_iff (Q s') ⟨fun h _ _ he => by cases he; exact h, fun h => h _ _ rfl⟩

instance decidableEachStep (C : σ → ι → Prop) [∀ s i, Decidable (C s i)] :
    (s : σ) → (is : List ι) → Decidable (EachStep step C s is)
  | _, [] => isTrue trivial
  | _, _ :: is =>
    have : DecidablePred (fun s' => EachStep step C s' is) := fun s' => decidableEachStep C s' is
    inferInstanceAs (Decidable (_ ∧ _))

variable {step} {s₀ s s' : σ} {i : ι} {o : ο} {is : List ι} {os : List ο}

theorem run_cons : run step s (i :: is) = .ok (s', os) ↔
    ∃ s₁ o os', step s i = .ok (s₁, o) ∧ run step s₁ is = .ok (s', os') ∧ os = o :: os' := by
  simp only [run, bind_eq_ok, Prod.exists, Except.ok.injEq, Prod.mk.injEq]
  constructor
  · rintro ⟨s₁, o, h, s₂, os', h', rfl, rfl⟩
    exact ⟨s₁, o, os', h, h', rfl⟩
  · rintro ⟨s₁, o, os', h, h', rfl⟩
    exact ⟨s₁, o, h, s', os', h', rfl, rfl⟩

variable (step) in
/-- The run completes and its last state and outputs pass a test. -/
def completesIn (test : σ → List ο → Bool) (s : σ) (is : List ι) : Bool :=
  match run step s is with
  | .ok (s', os) => test s' os
  | .error _ => false

theorem exists_run_of_completesIn {test : σ → List ο → Bool}
    (h : completesIn step test s is = true) :
    ∃ s' os, run step s is = .ok (s', os) ∧ test s' os = true := by
  rw [completesIn] at h
  split at h
  · rename_i s' os hr
    exact ⟨s', os, hr, h⟩
  · cases h

theorem Reachable.refl (s : σ) : Reachable step s s := ⟨[], [], rfl⟩

/-- What holds at the start and is kept by every step holds of every reachable state. -/
theorem Reachable.invariant {I : σ → Prop} (hr : Reachable step s₀ s) (h₀ : I s₀)
    (hstep : ∀ s i s' o, I s → step s i = .ok (s', o) → I s') : I s := by
  obtain ⟨is, os, h⟩ := hr
  induction is generalizing s₀ os with
  | nil =>
    obtain ⟨rfl, -⟩ : s₀ = s ∧ [] = os := by simpa [run] using h
    exact h₀
  | cons i is ih =>
    obtain ⟨s₁, o, os', hs, h', -⟩ := run_cons.mp h
    exact ih (hstep _ _ _ _ h₀ hs) os' h'

/-- A quantity that every step increases bounds the number of steps. -/
theorem length_le_of_increasing {f : σ → ℕ}
    (hstep : ∀ s i s' o, step s i = .ok (s', o) → f s < f s')
    (h : run step s is = .ok (s', os)) : f s + is.length ≤ f s' := by
  induction is generalizing s os with
  | nil =>
    obtain ⟨rfl, -⟩ : s = s' ∧ [] = os := by simpa [run] using h
    exact Nat.le_refl _
  | cons i is ih =>
    obtain ⟨s₁, o, os', hs, h', -⟩ := run_cons.mp h
    have hlt := hstep _ _ _ _ hs
    have hle := ih h'
    simp only [List.length_cons]
    omega

/-- A quantity that every step updates from its input and output is, after a run, their fold. -/
theorem run_foldl {β : Type*} {I : σ → Prop} {f : σ → β} {g : β → ι × ο → β}
    (hI : ∀ s i s' o, I s → step s i = .ok (s', o) → I s')
    (hf : ∀ s i s' o, I s → step s i = .ok (s', o) → f s' = g (f s) (i, o)) (h : I s)
    (hr : run step s is = .ok (s', os)) : f s' = (is.zip os).foldl g (f s) := by
  induction is generalizing s os with
  | nil =>
    obtain ⟨rfl, rfl⟩ : s = s' ∧ [] = os := by simpa [run] using hr
    rfl
  | cons i is ih =>
    obtain ⟨s₁, o, os', hs, h', rfl⟩ := run_cons.mp hr
    rw [ih (hI s i s₁ o h hs) h', hf s i s₁ o h hs]
    rfl

/-- If the steps that meet `C` keep an invariant that gives `P`, then `P` holds throughout a run
whose steps all meet `C`. -/
theorem throughout_of_eachStep {I P : σ → Prop} {C : σ → ι → Prop} (hP : ∀ s, I s → P s)
    (hI : ∀ s i s' o, I s → C s i → step s i = .ok (s', o) → I s') (h : I s)
    (hC : EachStep step C s is) : Throughout step P s is := by
  induction is generalizing s with
  | nil => exact hP s h
  | cons i is ih =>
    refine ⟨hP s h, ?_⟩
    intro s' o hs
    exact ih (hI s i s' o h hC.1 hs) (hC.2 s' o hs)

/-- What the steps that meet `C` keep is kept by a run of them. -/
theorem invariant_of_eachStep {I : σ → Prop} {C : σ → ι → Prop}
    (hI : ∀ s i s' o, I s → C s i → step s i = .ok (s', o) → I s') (h : I s)
    (hC : EachStep step C s is) (hr : run step s is = .ok (s', os)) : I s' := by
  induction is generalizing s os with
  | nil =>
    obtain ⟨rfl, -⟩ : s = s' ∧ [] = os := by simpa [run] using hr
    exact h
  | cons i is ih =>
    obtain ⟨s₁, o, os', hs, hr', -⟩ := run_cons.mp hr
    exact ih (hI s i s₁ o h hC.1 hs) (hC.2 s₁ o hs) hr'

theorem eachStep_mono {C D : σ → ι → Prop} (hCD : ∀ s i, C s i → D s i)
    (h : EachStep step C s is) : EachStep step D s is := by
  induction is generalizing s with
  | nil => trivial
  | cons i is ih => exact ⟨hCD s i h.1, fun s' o hs => ih (h.2 s' o hs)⟩

/-- If, where the invariant and `P` hold, a step keeps `P` exactly when it meets `C`,
then `P` holds throughout a run exactly when all its steps meet `C`. -/
theorem throughout_iff_eachStep {I P : σ → Prop} {C : σ → ι → Prop}
    (hI : ∀ s i s' o, I s → step s i = .ok (s', o) → I s')
    (hP : ∀ s i s' o, I s → P s → step s i = .ok (s', o) → (P s' ↔ C s i))
    (hr : run step s is = .ok (s', os)) (h : I s) (h₀ : P s) :
    Throughout step P s is ↔ EachStep step C s is := by
  induction is generalizing s os with
  | nil => simp [Throughout, EachStep, h₀]
  | cons i is ih =>
    obtain ⟨s₁, o, os', hs, hr', -⟩ := run_cons.mp hr
    have hone {Q : σ → Prop} : (∀ t p, step s i = .ok (t, p) → Q t) ↔ Q s₁ := by
      rw [hs]
      exact ⟨fun hq => hq s₁ o rfl, fun hq t p he => by cases he; exact hq⟩
    simp only [Throughout, EachStep, h₀, true_and, hone]
    constructor
    · intro ht
      have h₁ : P s₁ := by cases is with
        | nil => exact ht
        | cons j js => exact ht.1
      exact ⟨(hP s i s₁ o h h₀ hs).mp h₁, (ih hr' (hI s i s₁ o h hs) h₁).mp ht⟩
    · rintro ⟨hc, ht⟩
      exact (ih hr' (hI s i s₁ o h hs) ((hP s i s₁ o h h₀ hs).mpr hc)).mpr ht

/-- What every step keeps as long as its outputs meet `Q` is kept by such a run, and a potential
pays for the costs of its steps. -/
theorem cost_le_of_potential {I : σ → Prop} {Q : ο → Prop} {f : σ → ℕ} {cost : ο → ℕ}
    (hstep : ∀ s i s' o, I s → Q o → step s i = .ok (s', o) → I s' ∧ cost o + f s' ≤ f s)
    (h : I s) (hQ : ∀ o ∈ os, Q o) (hr : run step s is = .ok (s', os)) :
    I s' ∧ (os.map cost).sum + f s' ≤ f s := by
  induction is generalizing s os with
  | nil =>
    obtain ⟨rfl, rfl⟩ : s = s' ∧ [] = os := by simpa [run] using hr
    exact ⟨h, by simp⟩
  | cons i is ih =>
    obtain ⟨s₁, o, os', hs, hr', rfl⟩ := run_cons.mp hr
    obtain ⟨h₁, hone⟩ := hstep s i s₁ o h (hQ o List.mem_cons_self) hs
    obtain ⟨h', hrest⟩ := ih h₁ (fun o ho => hQ o (List.mem_cons_of_mem _ ho)) hr'
    refine ⟨h', ?_⟩
    simp only [List.map_cons, List.sum_cons]
    omega

/-- What every step from states with an invariant outputs, a run from such a state outputs. -/
theorem forall_outputs {I : σ → Prop} {Q : ο → Prop}
    (hstep : ∀ s i s' o, I s → step s i = .ok (s', o) → I s' ∧ Q o) (h : I s)
    (hr : run step s is = .ok (s', os)) : I s' ∧ ∀ o ∈ os, Q o := by
  induction is generalizing s os with
  | nil =>
    obtain ⟨rfl, rfl⟩ : s = s' ∧ [] = os := by simpa [run] using hr
    exact ⟨h, by simp⟩
  | cons i is ih =>
    obtain ⟨s₁, o, os', hs, hr', rfl⟩ := run_cons.mp hr
    obtain ⟨h₁, ho⟩ := hstep s i s₁ o h hs
    obtain ⟨h', hos⟩ := ih h₁ hr'
    exact ⟨h', List.forall_mem_cons.mpr ⟨ho, hos⟩⟩

/-- What holds of a state and the inputs that are still to come is kept by every step, and every
step outputs nothing but `Q`. -/
theorem outputs_of_ahead {P : σ → List ι → Prop} {Q : ο → Prop}
    (hstep : ∀ s i is s' o, P s (i :: is) → step s i = .ok (s', o) → P s' is ∧ Q o) (h : P s is)
    (hr : run step s is = .ok (s', os)) : P s' [] ∧ ∀ o ∈ os, Q o := by
  induction is generalizing s os with
  | nil =>
    obtain ⟨rfl, rfl⟩ : s = s' ∧ [] = os := by simpa [run] using hr
    exact ⟨h, by simp⟩
  | cons i is ih =>
    obtain ⟨s₁, o, os', hs, hr', rfl⟩ := run_cons.mp hr
    obtain ⟨h₁, ho⟩ := hstep s i is s₁ o h hs
    obtain ⟨h', hos⟩ := ih h₁ hr'
    exact ⟨h', List.forall_mem_cons.mpr ⟨ho, hos⟩⟩

section

variable {I : σ → Prop} {own : σ → ι → Prop} {work : σ → ℕ}

/-- A run of steps that each leave less work is no longer than the work it starts with. -/
theorem length_le_of_decreasing
    (hstep : ∀ s i s' o, I s → own s i → step s i = .ok (s', o) → I s' ∧ work s' < work s) (h : I s)
    (hown : EachStep step own s is) (hr : run step s is = .ok (s', os)) :
    is.length + work s' ≤ work s := by
  induction is generalizing s os with
  | nil =>
    obtain ⟨rfl, -⟩ : s = s' ∧ [] = os := by simpa [run] using hr
    exact Nat.le_of_eq (Nat.zero_add _)
  | cons i is ih =>
    obtain ⟨s₁, o, os', hs, hr', -⟩ := run_cons.mp hr
    obtain ⟨h₁, hlt⟩ := hstep s i s₁ o h hown.1 hs
    have hrest := ih h₁ (hown.2 s₁ o hs) hr'
    rw [List.length_cons]
    omega

/-- Such steps lead to a state from which there is none. -/
theorem exists_run_to_end
    (hstep : ∀ s i s' o, I s → own s i → step s i = .ok (s', o) → I s' ∧ work s' < work s)
    (h : I s) : ∃ is os s', EachStep step own s is ∧ run step s is = .ok (s', os) ∧ I s' ∧
      ∀ i, own s' i → ∃ why, step s' i = .error why := by
  induction hwork : work s using Nat.strongRecOn generalizing s with
  | ind n ih =>
    by_cases hstuck : ∀ i, own s i → ∃ why, step s i = .error why
    · exact ⟨[], [], s, trivial, rfl, h, hstuck⟩
    · push Not at hstuck
      obtain ⟨i, hi, hok⟩ := hstuck
      cases hs : step s i with
      | error why => exact absurd hs (hok why)
      | ok q =>
        obtain ⟨s₁, o⟩ := q
        obtain ⟨h₁, hlt⟩ := hstep s i s₁ o h hi hs
        obtain ⟨is, os, s', hown, hr, h', hend⟩ := ih (work s₁) (hwork ▸ hlt) h₁ rfl
        refine ⟨i :: is, o :: os, s', ⟨hi, ?_⟩, run_cons.mpr ⟨s₁, o, os, hs, hr, rfl⟩, h', hend⟩
        intro s₂ o₂ hs₂
        rw [hs] at hs₂
        cases hs₂
        exact hown

/-- A condition on the inputs only. -/
theorem eachStep_const {C : ι → Prop} (hr : run step s is = .ok (s', os)) :
    EachStep step (fun _ => C) s is ↔ ∀ i ∈ is, C i := by
  induction is generalizing s os with
  | nil => exact iff_of_true trivial (by simp)
  | cons i is ih =>
    obtain ⟨s₁, o, os', hs, hr', -⟩ := run_cons.mp hr
    rw [List.forall_mem_cons, ← ih hr', EachStep, hs]
    refine and_congr_right fun _ => ⟨fun h => h s₁ o rfl, ?_⟩
    rintro h _ _ he
    cases he
    exact h

end

/-- A queue: what is in it and what goes in is what comes out and what is in it then, in this
order. The last step need not keep the invariant. -/
theorem conserved {β : Type*} {I : σ → Prop} {Q : ο → Prop} {queue : σ → List β}
    {enters : ι → List β} {leaves : ο → List β}
    (hstep : ∀ s i s' o, I s → step s i = .ok (s', o) →
      (Q o → I s') ∧ queue s ++ enters i = leaves o ++ queue s') (h : I s)
    (hQ : ∀ o ∈ os.dropLast, Q o) (hr : run step s is = .ok (s', os)) :
    queue s ++ is.flatMap enters = os.flatMap leaves ++ queue s' := by
  induction is generalizing s os with
  | nil =>
    obtain ⟨rfl, rfl⟩ : s = s' ∧ [] = os := by simpa [run] using hr
    simp
  | cons i is ih =>
    obtain ⟨s₁, o, os', hs, hr', rfl⟩ := run_cons.mp hr
    obtain ⟨hkept, hone⟩ := hstep s i s₁ o h hs
    have hrest : queue s₁ ++ is.flatMap enters = os'.flatMap leaves ++ queue s' := by
      cases is with
      | nil =>
        obtain ⟨rfl, rfl⟩ : s₁ = s' ∧ [] = os' := by simpa [run] using hr'
        simp
      | cons j js =>
        obtain ⟨-, o', os'', -, -, rfl⟩ := run_cons.mp hr'
        rw [List.dropLast_cons_cons, List.forall_mem_cons] at hQ
        exact ih (hkept hQ.1) hQ.2 hr'
    rw [List.flatMap_cons, List.flatMap_cons, ← List.append_assoc, hone, List.append_assoc, hrest,
      List.append_assoc]

/-- The same for a queue that the outputs fill as well, and the inputs empty. -/
theorem conserved_by_steps {β : Type*} {I : σ → Prop} (queue : σ → List β)
    (enters leaves : ι × ο → List β)
    (hstep : ∀ s i s' o, I s → step s i = .ok (s', o) →
      I s' ∧ queue s ++ enters (i, o) = leaves (i, o) ++ queue s') (h : I s)
    (hr : run step s is = .ok (s', os)) :
    queue s ++ (is.zip os).flatMap enters = (is.zip os).flatMap leaves ++ queue s' := by
  induction is generalizing s os with
  | nil =>
    obtain ⟨rfl, rfl⟩ : s = s' ∧ [] = os := by simpa [run] using hr
    simp
  | cons i is ih =>
    obtain ⟨s₁, o, os', hs, hr', rfl⟩ := run_cons.mp hr
    obtain ⟨h₁, hone⟩ := hstep s i s₁ o h hs
    rw [List.zip_cons_cons, List.flatMap_cons, List.flatMap_cons, ← List.append_assoc, hone,
      List.append_assoc, ih h₁ hr', List.append_assoc]

theorem run_append {js : List ι} {os' : List ο} {s'' : σ} (h : run step s is = .ok (s', os))
    (h' : run step s' js = .ok (s'', os')) : run step s (is ++ js) = .ok (s'', os ++ os') := by
  induction is generalizing s os with
  | nil =>
    obtain ⟨rfl, rfl⟩ : s = s' ∧ [] = os := by simpa [run] using h
    exact h'
  | cons i is ih =>
    obtain ⟨s₁, o, os₁, hs, hr, rfl⟩ := run_cons.mp h
    exact run_cons.mpr ⟨s₁, o, os₁ ++ os', hs, ih hr, rfl⟩

theorem eachStep_append {C : σ → ι → Prop} {js : List ι} (h : run step s is = .ok (s', os))
    (hc : EachStep step C s is) (hc' : EachStep step C s' js) : EachStep step C s (is ++ js) := by
  induction is generalizing s os with
  | nil =>
    obtain ⟨rfl, -⟩ : s = s' ∧ [] = os := by simpa [run] using h
    exact hc'
  | cons i is ih =>
    obtain ⟨s₁, o, os₁, hs, hr, -⟩ := run_cons.mp h
    refine ⟨hc.1, ?_⟩
    intro s₂ o₂ hs₂
    rw [hs] at hs₂
    cases hs₂
    exact ih hr (hc.2 s₁ o hs)

section

variable {σ' ι' ο' ε' : Type} {step' : Transition σ' ι' ο' ε'} {seen : ο → Option (ι' × ο')}
  {R : σ → σ' → Prop}

variable (step' R) in
/-- To a machine in state `a` a step is invisible, or it is one step of its own. -/
inductive Stutters (a : σ') (s' : σ) : Option (ι' × ο') → Prop
  | stays (h : R s' a) : Stutters a s' none
  | moves {i : ι'} {o : ο'} {a' : σ'} (hs : step' a i = .ok (a', o)) (h : R s' a') :
      Stutters a s' (some (i, o))

theorem run_of_stuttering (hstep : ∀ s a i s' o, R s a → step s i = .ok (s', o) →
      Stutters step' R a s' (seen o)) {a : σ'} (hR : R s a)
    (hr : run step s is = .ok (s', os)) : ∃ a',
      run step' a ((os.filterMap seen).map Prod.fst) =
        .ok (a', (os.filterMap seen).map Prod.snd) ∧ R s' a' := by
  induction is generalizing s a os with
  | nil =>
    obtain ⟨rfl, rfl⟩ : s = s' ∧ [] = os := by simpa [run] using hr
    exact ⟨a, rfl, hR⟩
  | cons i is ih =>
    obtain ⟨s₁, o, os', hs, hr', rfl⟩ := run_cons.mp hr
    have hone := hstep s a i s₁ o hR hs
    cases ho : seen o with
    | none =>
      rw [ho] at hone
      obtain ⟨hR₁⟩ := hone
      rw [List.filterMap_cons_none ho]
      exact ih hR₁ hr'
    | some q =>
      rw [ho] at hone
      cases hone with
      | moves hs₁ hR₁ =>
        obtain ⟨a', hrun, hR'⟩ := ih hR₁ hr'
        rw [List.filterMap_cons_some ho, List.map_cons, List.map_cons]
        exact ⟨a', run_cons.mpr ⟨_, _, _, hs₁, hrun, rfl⟩, hR'⟩

/-- A step that is a run of another machine, under a condition that becomes one of this run. -/
theorem run_of_expansion {C : σ → ι → Prop} {C' : σ' → ι' → Prop} (expand : ι → ο → List ι')
    (hstep : ∀ s a i s' o, R s a → C s i → step s i = .ok (s', o) →
      ∃ a' os, run step' a (expand i o) = .ok (a', os) ∧ EachStep step' C' a (expand i o) ∧ R s' a')
    {a : σ'} (hR : R s a) (hC : EachStep step C s is) (hr : run step s is = .ok (s', os)) :
    ∃ a' os', run step' a ((is.zip os).flatMap fun q => expand q.1 q.2) = .ok (a', os') ∧
      EachStep step' C' a ((is.zip os).flatMap fun q => expand q.1 q.2) ∧ R s' a' := by
  induction is generalizing s a os with
  | nil =>
    obtain ⟨rfl, rfl⟩ : s = s' ∧ [] = os := by simpa [run] using hr
    exact ⟨a, [], rfl, trivial, hR⟩
  | cons i is ih =>
    obtain ⟨s₁, o, os₁, hs, hr', rfl⟩ := run_cons.mp hr
    obtain ⟨a₁, os₂, hrun, hC₁, hR₁⟩ := hstep s a i s₁ o hR hC.1 hs
    obtain ⟨a', os', hrun', hC', hR'⟩ := ih hR₁ (hC.2 s₁ o hs) hr'
    rw [List.zip_cons_cons, List.flatMap_cons]
    exact ⟨a', os₂ ++ os', run_append hrun hrun', eachStep_append hrun hC₁ hC', hR'⟩

end

section

variable {τ κ : Type} {R : σ → σ → Prop}

/-- Both results are the same reason, or the same output and related states. -/
inductive Agree (R : σ → σ → Prop) : Except ε (σ × ο) → Except ε (σ × ο) → Prop
  | error (why : ε) : Agree R (.error why) (.error why)
  | ok {s s' : σ} (o : ο) (h : R s s') : Agree R (.ok (s, o)) (.ok (s', o))

theorem Agree.bind {T : τ → τ → Prop} {x x' : Except ε (σ × ο)}
    {f f' : σ × ο → Except ε (τ × κ)} (h : Agree R x x')
    (hf : ∀ s s' o, x = .ok (s, o) → R s s' → Agree T (f (s, o)) (f' (s', o))) :
    Agree T (x >>= f) (x' >>= f') := by
  cases h with
  | error why => exact .error why
  | ok o h => exact hf _ _ o rfl h

theorem Agree.mapError {ε' : Type} (g : ε → ε') {x x' : Except ε (σ × ο)} (h : Agree R x x') :
    Agree R (x.mapError g) (x'.mapError g) := by
  cases h with
  | error why => exact .error (g why)
  | ok o h => exact .ok o h

/-- Steps from related states that agree make runs that agree. -/
theorem run_agree {C : σ → ι → Prop}
    (hstep : ∀ s s' i, R s s' → C s i → Agree R (step s i) (step s' i)) {s s' : σ} (h : R s s')
    (hC : EachStep step C s is) : Agree R (run step s is) (run step s' is) := by
  induction is generalizing s s' with
  | nil => exact .ok [] h
  | cons i is ih =>
    refine (hstep s s' i h hC.1).bind ?_
    intro s₁ s₁' o hs h₁
    exact (ih h₁ (hC.2 s₁ o hs)).bind (fun _ _ os _ h₂ => .ok (o :: os) h₂)

end

variable {α ω : Type} (astep : α → ι → α × ω)

/-- The run of a machine that always has a next state. -/
def follow : α → List ι → α × List ω
  | a, [] => (a, [])
  | a, i :: is => ((follow (astep a i).1 is).1, (astep a i).2 :: (follow (astep a i).1 is).2)

variable (step) in
/-- The condition holds of both states of the two runs and the input they take. -/
def EachPair (C : σ → α → ι → Prop) : σ → α → List ι → Prop
  | _, _, [] => True
  | s, a, i :: is => C s a i ∧
      ∀ s' o, step s i = .ok (s', o) → EachPair C s' (astep a i).1 is

instance decidableEachPair (C : σ → α → ι → Prop) [∀ s a i, Decidable (C s a i)] :
    (s : σ) → (a : α) → (is : List ι) → Decidable (EachPair step astep C s a is)
  | _, _, [] => isTrue trivial
  | _, a, i :: is =>
    have : DecidablePred (fun s' => EachPair step astep C s' (astep a i).1 is) :=
      fun s' => decidableEachPair C s' (astep a i).1 is
    inferInstanceAs (Decidable (_ ∧ _))

/-- A step by step simulation carries over to runs: the concrete run completes, ends
in a related state and has related outputs. -/
theorem simulation {R : σ → α → Prop} {Out : ο → ω → Prop} {C : σ → α → ι → Prop}
    (hsim : ∀ s a i, R s a → C s a i → ∃ s' o,
      step s i = .ok (s', o) ∧ R s' (astep a i).1 ∧ Out o (astep a i).2)
    {a : α} (hR : R s a) (hC : EachPair step astep C s a is) :
    ∃ s' os, run step s is = .ok (s', os) ∧ R s' (follow astep a is).1 ∧
      List.Forall₂ Out os (follow astep a is).2 := by
  induction is generalizing s a with
  | nil => exact ⟨s, [], rfl, hR, .nil⟩
  | cons i is ih =>
    obtain ⟨s₁, o, hs, hR₁, ho⟩ := hsim s a i hR hC.1
    obtain ⟨s₂, os, hr, hR₂, hos⟩ := ih hR₁ (hC.2 s₁ o hs)
    exact ⟨s₂, o :: os, run_cons.mpr ⟨s₁, o, os, hs, hr, rfl⟩, hR₂, .cons ho hos⟩

/-- A queue that the simulating machine fills and the inputs empty: what comes out is what was in
it and what was put in, in this order. -/
theorem conserved_of_simulation {β : Type*} (queue : σ → List β) (enters : ω → List β)
    (leaves : ι → List β) {R : σ → α → Prop} {C : σ → ι → Prop}
    (hsim : ∀ s a i s' o, R s a → C s i → step s i = .ok (s', o) → R s' (astep a i).1 ∧
      queue s ++ enters (astep a i).2 = leaves i ++ queue s')
    {a : α} (hR : R s a) (hC : EachStep step C s is) (hr : run step s is = .ok (s', os)) :
    queue s ++ (follow astep a is).2.flatMap enters = is.flatMap leaves ++ queue s' := by
  induction is generalizing s a os with
  | nil =>
    obtain ⟨rfl, -⟩ : s = s' ∧ [] = os := by simpa [run] using hr
    simp [follow]
  | cons i is ih =>
    obtain ⟨s₁, o, os', hs, hr', -⟩ := run_cons.mp hr
    obtain ⟨hR₁, hone⟩ := hsim s a i s₁ o hR hC.1 hs
    have hrest := ih hR₁ (hC.2 s₁ o hs) hr'
    rw [follow, List.flatMap_cons, List.flatMap_cons, ← List.append_assoc, hone, List.append_assoc,
      hrest, List.append_assoc]

section

variable {ι' ο' : Type} {seen : ο → Option (ι' × ο')} {R : σ → α → Prop} {Out : ο' → ω → Prop}
  {bstep : α → ι' → α × ω}

variable (bstep R Out) in
/-- To a total machine in state `a` a step is invisible, or it is the machine's next step and has
a related output. -/
inductive Mirrors (a : α) (s' : σ) : Option (ι' × ο') → Prop
  | stays (h : R s' a) : Mirrors a s' none
  | moves {i : ι'} {o : ο'} (h : R s' (bstep a i).1) (out : Out o (bstep a i).2) :
      Mirrors a s' (some (i, o))

/-- What is seen of a run is the run of the total machine on the same inputs. -/
theorem follow_of_stuttering {C : σ → ι → Prop}
    (hsim : ∀ s a i s' o, R s a → C s i → step s i = .ok (s', o) →
      Mirrors R Out bstep a s' (seen o))
    {a : α} (hR : R s a) (hC : EachStep step C s is) (hr : run step s is = .ok (s', os)) :
    R s' (follow bstep a ((os.filterMap seen).map Prod.fst)).1 ∧
      List.Forall₂ Out ((os.filterMap seen).map Prod.snd)
        (follow bstep a ((os.filterMap seen).map Prod.fst)).2 := by
  induction is generalizing s a os with
  | nil =>
    obtain ⟨rfl, rfl⟩ : s = s' ∧ [] = os := by simpa [run] using hr
    exact ⟨hR, .nil⟩
  | cons i is ih =>
    obtain ⟨s₁, o, os', hs, hr', rfl⟩ := run_cons.mp hr
    have hone := hsim s a i s₁ o hR hC.1 hs
    have hrest := hC.2 s₁ o hs
    cases ho : seen o with
    | none =>
      rw [ho] at hone
      obtain ⟨hR₁⟩ := hone
      rw [List.filterMap_cons_none ho]
      exact ih hR₁ hrest hr'
    | some q =>
      rw [ho] at hone
      cases hone with
      | moves hR₁ hout =>
        obtain ⟨hR', hall⟩ := ih hR₁ hrest hr'
        rw [List.filterMap_cons_some ho, List.map_cons, List.map_cons]
        exact ⟨hR', .cons hout hall⟩

end

end MessageBroker.TransitionRuns
