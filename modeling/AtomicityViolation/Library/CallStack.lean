import AtomicityViolation.Library.Simulation
import Mathlib.Data.List.Forall2

/-!
# Procedures that call each other

What one activation of a procedure does by itself is a transition relation. `Procedures` says beside
that when an activation is at a call, where one of the callee starts, when an activation is over and
with what result, and how the caller goes on with it. The whole is a stack of activations
(`Procedures.Step`). To compare two systems it is enough to compare their activations: what
`Simulated` asks of these makes the stacks simulate each other (`Simulated.stack`), however deep the
calls are, so the runs of each call are answered (`Simulated.answers`).
-/

namespace Transition

variable {S S' A A' C R O : Type*}

/-- The activations of procedures, with their steps, calls and results. -/
structure Procedures (S A C R : Type*) where
  /-- The steps that an activation takes by itself. -/
  step : S → A → S → Prop
  /-- The activation is at this call. -/
  calls : S → C → Prop
  /-- Where an activation of the callee starts. -/
  starts : C → S → Prop
  /-- The activation is over, with this result. -/
  ends : S → R → Prop
  /-- The caller goes on with the result. -/
  resumes : S → R → A → S → Prop

/-- The steps of a stack of activations, of which the first one is running. -/
inductive Procedures.Step (P : Procedures S A C R) : List S → A ⊕ C → List S → Prop
  | step {s s' : S} {a : A} {ss : List S} : P.step s a s' → Step P (s :: ss) (.inl a) (s' :: ss)
  | call {s t : S} {c : C} {ss : List S} : P.calls s c → P.starts c t →
      Step P (s :: ss) (.inr c) (t :: s :: ss)
  | resume {s t t' : S} {r : R} {a : A} {ss : List S} : P.ends s r → P.resumes t r a t' →
      Step P (s :: t :: ss) (.inl a) (t' :: ss)

/-- What a step of a stack shows: that of an activation what its label shows, and a call itself. -/
def stackView (view : A → Option O) : A ⊕ C → Option (O ⊕ C) :=
  Sum.elim (fun a => (view a).map .inl) fun c => some (.inr c)

/-- The activations of one system are answered by those of another: the running ones, which are
related by `Active`, and those that wait for the end of a call, which are related by `Waiting`. -/
structure Procedures.Simulated (P : Procedures S A C R) (P' : Procedures S' A' C R)
    (view : A → Option O) (view' : A' → Option O) (Active Waiting : S → S' → Prop) : Prop where
  /-- Each step is answered by steps that show the same. -/
  step : Simulates P.step P'.step view view' Active
  /-- A call is answered by the same call, perhaps after steps that show nothing. -/
  call : ∀ {s t c}, Active s t → P.calls s c →
    ∃ bs t', Run P'.step t bs t' ∧ bs.filterMap view' = [] ∧ P'.calls t' c ∧ Waiting s t'
  /-- Activations start related. -/
  start : ∀ {c s}, P.starts c s → ∃ t, P'.starts c t ∧ Active s t
  /-- They end with the same result. -/
  finish : ∀ {s t r}, Active s t → P.ends s r → P'.ends t r
  /-- With the same result, the callers go on in the same way. -/
  resume : ∀ {s t r a s'}, Waiting s t → P.resumes s r a s' →
    ∃ a' t', P'.resumes t r a' t' ∧ view' a' = view a ∧ Active s' t'

/-- Every run of a call in one system is answered by a run of the call in the other that shows the
same, and the activations on the stacks are related. -/
def Procedures.Answers (P : Procedures S A C R) (P' : Procedures S' A' C R)
    (view : A → Option O) (view' : A' → Option O) (Related : S → S' → Prop) : Prop :=
  ∀ c s as ss, P.starts c s → Run P.Step [s] as ss → ∃ t bs ts, P'.starts c t ∧
    Run P'.Step [t] bs ts ∧ bs.filterMap (stackView view') = as.filterMap (stackView view) ∧
    List.Forall₂ Related ss ts

/-- The running activations of two stacks are related, and so are the waiting ones. -/
inductive Stacks (Active Waiting : S → S' → Prop) : List S → List S' → Prop
  | cons {s : S} {t : S'} {ss : List S} {ts : List S'} : Active s t → List.Forall₂ Waiting ss ts →
      Stacks Active Waiting (s :: ss) (t :: ts)

/-- Related stacks have activations that are related one by one. -/
theorem Stacks.forall₂ {Active Waiting Related : S → S' → Prop} {ss : List S} {ts : List S'}
    (hactive : ∀ s t, Active s t → Related s t) (hwaiting : ∀ s t, Waiting s t → Related s t)
    (h : Stacks Active Waiting ss ts) : List.Forall₂ Related ss ts := by
  obtain ⟨hfirst, hrest⟩ := h
  exact .cons (hactive _ _ hfirst) (hrest.imp hwaiting)

namespace Procedures

variable {P : Procedures S A C R} {P' : Procedures S' A' C R} {view : A → Option O}
  {view' : A' → Option O} {Active Waiting : S → S' → Prop}

/-- The steps of the running activation, with the others below it. -/
theorem run_step {s s' : S} {as : List A} (h : Run P.step s as s') (ss : List S) :
    Run P.Step (s :: ss) (as.map .inl) (s' :: ss) := by
  induction h with
  | nil => exact .nil _
  | cons hstep _ ih => exact .cons (.step hstep) ih

/-- What the steps of an activation show in a stack. -/
theorem filterMap_stackView (as : List A) :
    (as.map .inl : List (A ⊕ C)).filterMap (stackView view) = (as.filterMap view).map .inl := by
  rw [List.filterMap_map, List.map_filterMap]
  rfl

/-- Activations that simulate each other make stacks that do. -/
theorem Simulated.stack (h : P.Simulated P' view view' Active Waiting) :
    Simulates P.Step P'.Step (stackView view) (stackView view') (Stacks Active Waiting) := by
  rintro _ _ a _ ⟨hactive, hwaiting⟩ hstep
  cases hstep with
  | step hstep =>
    obtain ⟨bs, t', hbs, hview, hactive'⟩ := h.step _ _ _ _ hactive hstep
    refine ⟨bs.map .inl, _, run_step hbs _, ?_, .cons hactive' hwaiting⟩
    rw [filterMap_stackView, hview]
    simp [stackView, Option.toList_map]
  | call hcall hstart =>
    obtain ⟨bs, t', hbs, hview, hcall', hwait⟩ := h.call hactive hcall
    obtain ⟨u, hstart', hactive'⟩ := h.start hstart
    refine ⟨_, _, (run_step hbs _).append (.single (.call hcall' hstart')), ?_,
      .cons hactive' (.cons hwait hwaiting)⟩
    rw [List.filterMap_append, filterMap_stackView, hview]
    rfl
  | resume hend hresume =>
    cases hwaiting with
    | cons hwait hwaiting =>
      obtain ⟨a', t', hresume', hview, hactive'⟩ := h.resume hwait hresume
      refine ⟨[_], _, .single (.resume (h.finish hactive hend) hresume'), ?_,
        .cons hactive' hwaiting⟩
      simp only [stackView, List.filterMap_cons, Sum.elim_inl, hview, List.filterMap_nil]
      cases view _ <;> rfl

/-- The runs of all calls are answered. -/
theorem Simulated.answers {Related : S → S' → Prop}
    (h : P.Simulated P' view view' Active Waiting) (hactive : ∀ s t, Active s t → Related s t)
    (hwaiting : ∀ s t, Waiting s t → Related s t) : P.Answers P' view view' Related := by
  intro c s as ss hs hrun
  obtain ⟨t, ht, hst⟩ := h.start hs
  obtain ⟨bs, ts, hbs, hview, hstacks⟩ := h.stack.run (.cons hst .nil) hrun
  exact ⟨t, bs, ts, ht, hbs, hview, hstacks.forall₂ hactive hwaiting⟩

end Procedures

end Transition
