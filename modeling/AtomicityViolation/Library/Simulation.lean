import AtomicityViolation.Library.Run

/-!
# Simulation with silent steps

Two transition relations are compared by what their steps show: a step with the label `a` shows
`view a`, or nothing where that is `none`. A relation between the states is a simulation when each
step of the first system is answered by a run of the second that shows the same (`Simulates`), and
then each run is (`Simulates.run`). Where nothing is shown this is `Run.refine`.
-/

namespace Transition

variable {S T A B O : Type*}

/-- Each step of `step` is answered by a run of `step'` that shows the same and leads to related
states again. -/
def Simulates (step : S → A → S → Prop) (step' : T → B → T → Prop) (view : A → Option O)
    (view' : B → Option O) (R : S → T → Prop) : Prop :=
  ∀ s t a s', R s t → step s a s' →
    ∃ bs t', Run step' t bs t' ∧ bs.filterMap view' = (view a).toList ∧ R s' t'

variable {step : S → A → S → Prop} {step' : T → B → T → Prop} {view : A → Option O}
  {view' : B → Option O} {R : S → T → Prop}

/-- The simulation rule: each run is answered by a run that shows the same. -/
theorem Simulates.run (h : Simulates step step' view view' R) {s s' : S} {t : T} {as : List A}
    (hR : R s t) (hrun : Run step s as s') :
    ∃ bs t', Run step' t bs t' ∧ bs.filterMap view' = as.filterMap view ∧ R s' t' := by
  induction hrun generalizing t with
  | nil s => exact ⟨[], t, .nil t, rfl, hR⟩
  | @cons s s₁ u a as hstep _ ih =>
    obtain ⟨bs, t₁, hbs, hview, hR₁⟩ := h _ _ _ _ hR hstep
    obtain ⟨cs, t₂, hcs, hview', hR₂⟩ := ih hR₁
    refine ⟨bs ++ cs, t₂, hbs.append hcs, ?_, hR₂⟩
    rw [List.filterMap_append, hview, hview', List.filterMap_cons]
    cases view a <;> rfl

/-- The steps of a family of systems, with the index of the system at the states and labels. -/
def Tagged {ι : Type*} (step : ι → S → A → S → Prop) (s : ι × S) (a : ι × A) (s' : ι × S) : Prop :=
  a.1 = s.1 ∧ s'.1 = s.1 ∧ step s.1 s.2 a.2 s'.2

/-- What a label with an index shows. -/
def taggedView {ι : Type*} (view : ι → A → Option O) (a : ι × A) : Option (ι × O) :=
  (view a.1 a.2).map fun o => (a.1, o)

/-- A run of one system of a family is one of the family. -/
theorem Run.tagged {ι : Type*} {step : ι → S → A → S → Prop} {i : ι} {s s' : S} {as : List A}
    (h : Run (step i) s as s') : Run (Tagged step) (i, s) (as.map (i, ·)) (i, s') := by
  induction h with
  | nil s => exact .nil _
  | @cons s t u a as hstep _ ih =>
    have hfirst : Tagged step (i, s) (i, a) (i, t) := ⟨rfl, rfl, hstep⟩
    exact .cons hfirst ih

/-- Families of systems simulate each other when the systems do. -/
theorem Simulates.tagged {ι : Type*} {step : ι → S → A → S → Prop} {step' : ι → T → B → T → Prop}
    {view : ι → A → Option O} {view' : ι → B → Option O} {R : ι → S → T → Prop}
    (h : ∀ i, Simulates (step i) (step' i) (view i) (view' i) (R i)) :
    Simulates (Tagged step) (Tagged step') (taggedView view) (taggedView view')
      fun s t => t.1 = s.1 ∧ R s.1 s.2 t.2 := by
  rintro ⟨i, s⟩ ⟨j, t⟩ ⟨k, a⟩ ⟨l, s'⟩ ⟨hj, hR⟩ ⟨hk, hl, hstep⟩
  obtain rfl : i = j := hj.symm
  obtain rfl : i = k := hk.symm
  obtain rfl : i = l := hl.symm
  obtain ⟨bs, t', hbs, hview, hR'⟩ := h i s t a s' hR hstep
  refine ⟨bs.map (i, ·), (i, t'), hbs.tagged, ?_, rfl, hR'⟩
  calc (bs.map (i, ·)).filterMap (taggedView view')
      = (bs.filterMap (view' i)).map (i, ·) := by rw [List.filterMap_map, List.map_filterMap]; rfl
    _ = (taggedView view (i, a)).toList := by rw [hview, taggedView, Option.toList_map]

/-- The rule where nothing is shown: each run is answered by a run between related states. -/
theorem Run.refine {s s' : S} {t : T} {as : List A}
    (h : ∀ s t a s', R s t → step s a s' → ∃ bs t', Run step' t bs t' ∧ R s' t')
    (hrun : Run step s as s') (hR : R s t) : ∃ bs t', Run step' t bs t' ∧ R s' t' := by
  have hsim : Simulates step step' (fun _ => (none : Option Unit)) (fun _ => none) R := by
    intro s t a s' hR hstep
    obtain ⟨bs, t', hbs, hR'⟩ := h s t a s' hR hstep
    exact ⟨bs, t', hbs, by simp, hR'⟩
  obtain ⟨bs, t', hbs, -, hR'⟩ := hsim.run hR hrun
  exact ⟨bs, t', hbs, hR'⟩

end Transition
