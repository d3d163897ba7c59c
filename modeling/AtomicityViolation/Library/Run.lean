import Mathlib.Data.List.Basic

/-!
# Runs of a transition relation

A transition relation `step : S → A → S → Prop` takes a state to a state under a label, and a `Run`
follows it along a list of labels. The rules here are the ones that a proof about all runs needs:
splitting and joining runs, the invariant rule (`Run.invariant`), its forms with the labels of the
run (`Run.invariant_of_mem`, `Run.invariant_trace`), and the reading of a run of a step *function*
as the evaluation of a left fold (`run_function_iff`), through which concrete runs are computed.
-/

namespace Transition

variable {S A : Type*}

/-- A run of `step` from a state to a state, along the labels of its steps. -/
inductive Run (step : S → A → S → Prop) : S → List A → S → Prop
  /-- The run that takes no step. -/
  | nil (s : S) : Run step s [] s
  /-- A step followed by a run. -/
  | cons {s t u : S} {a : A} {as : List A} :
      step s a t → Run step t as u → Run step s (a :: as) u

variable {step : S → A → S → Prop}

/-- The run of one step. -/
theorem Run.single {s t : S} {a : A} (h : step s a t) : Run step s [a] t :=
  .cons h (.nil t)

/-- Two runs, one after the other. -/
theorem Run.append {s t u : S} {as bs : List A} (h₁ : Run step s as t) (h₂ : Run step t bs u) :
    Run step s (as ++ bs) u := by
  induction h₁ with
  | nil => exact h₂
  | cons hstep _ ih => exact .cons hstep (ih h₂)

/-- A run along joined labels passes through a state between them. -/
theorem Run.split {s u : S} {as bs : List A} (h : Run step s (as ++ bs) u) :
    ∃ t, Run step s as t ∧ Run step t bs u := by
  induction as generalizing s with
  | nil => exact ⟨s, .nil s, h⟩
  | cons a as ih =>
    cases h with
    | cons hstep hrest =>
      obtain ⟨t, h₁, h₂⟩ := ih hrest
      exact ⟨t, .cons hstep h₁, h₂⟩

/-- A run takes the steps of any relation that has them. -/
theorem Run.mono {step' : S → A → S → Prop} (hstep : ∀ s a t, step s a t → step' s a t) {s t : S}
    {as : List A} (h : Run step s as t) : Run step' s as t := by
  induction h with
  | nil => exact .nil _
  | cons hs _ ih => exact .cons (hstep _ _ _ hs) ih

/-- The invariant rule: a property that every step preserves holds at the end of a run if it holds
at its start. -/
theorem Run.invariant {I : S → Prop} (hI : ∀ s a t, I s → step s a t → I t) {s t : S} {as : List A}
    (h : Run step s as t) (hs : I s) : I t := by
  induction h with
  | nil => exact hs
  | cons hstep _ ih => exact ih (hI _ _ _ hs hstep)

/-- A run takes the steps of any relation that has them in the states that an invariant allows. -/
theorem Run.mono_invariant {step' : S → A → S → Prop} {I : S → Prop}
    (hstep : ∀ s a t, I s → step s a t → step' s a t ∧ I t) {s t : S} {as : List A}
    (h : Run step s as t) (hs : I s) : Run step' s as t := by
  induction h with
  | nil => exact .nil _
  | cons hfirst _ ih =>
    obtain ⟨hfirst', ht⟩ := hstep _ _ _ hs hfirst
    exact .cons hfirst' (ih ht)

/-- The invariant rule with the labels of the run: it is enough that the steps with these labels
preserve the property. -/
theorem Run.invariant_of_mem {I : S → Prop} {s t : S} {as : List A} (h : Run step s as t)
    (hI : ∀ s a t, a ∈ as → I s → step s a t → I t) (hs : I s) : I t := by
  induction h with
  | nil => exact hs
  | cons hstep _ ih =>
    refine ih (fun s b t hb => hI s b t (List.mem_cons_of_mem _ hb)) ?_
    exact hI _ _ _ List.mem_cons_self hs hstep

/-- The invariant rule for a property of the labels so far and the state. -/
theorem Run.invariant_trace {I : List A → S → Prop}
    (hI : ∀ as s a t, I as s → step s a t → I (as ++ [a]) t) {s t : S} {as bs : List A}
    (h : Run step s bs t) (hs : I as s) : I (as ++ bs) t := by
  induction h generalizing as with
  | nil => simpa using hs
  | @cons s u t a bs hstep _ ih =>
    have hnext := ih (hI as _ a _ hs hstep)
    rwa [List.append_assoc] at hnext

/-- The transition relation of a step function, which answers `none` where the label is not
enabled. -/
def ofFunction (next : S → A → Option S) (s : S) (a : A) (t : S) : Prop :=
  next s a = some t

/-- A run of a step function is the evaluation of a left fold. -/
theorem run_function_iff {next : S → A → Option S} {s t : S} {as : List A} :
    Run (ofFunction next) s as t ↔ as.foldlM next s = some t := by
  induction as generalizing s with
  | nil =>
    constructor
    · rintro ⟨⟩
      rfl
    · intro h
      cases h
      exact .nil _
  | cons a as ih =>
    rw [List.foldlM_cons, Option.bind_eq_bind, Option.bind_eq_some_iff]
    constructor
    · rintro (_ | ⟨hstep, hrest⟩)
      exact ⟨_, hstep, ih.mp hrest⟩
    · rintro ⟨u, hstep, hrest⟩
      exact .cons hstep (ih.mpr hrest)

/-- A run of a step function whose steps meet a condition is the evaluation of a left fold, too. -/
theorem run_guarded_iff {next : S → A → Option S} {C : S → A → Prop} [∀ s a, Decidable (C s a)]
    {s t : S} {as : List A} : Run (fun s a t => next s a = some t ∧ C s a) s as t ↔
      as.foldlM (fun s a => if C s a then next s a else none) s = some t := by
  rw [← run_function_iff]
  have hstep : (fun s a t => next s a = some t ∧ C s a) =
      ofFunction fun s a => if C s a then next s a else none := by
    funext s a t
    by_cases hC : C s a <;> simp [ofFunction, hC]
  rw [hstep]

end Transition
