import Mathlib.Data.List.Nodup
import AtomicityViolation.Library.Before
import AtomicityViolation.Library.Run

/-!
# Operations that are noted before or after they are performed

An operation is two steps: it is performed, and it is noted in a list. An early operation is noted
first, and a late one is performed first. The steps of different operations may come in any order.
Then the order of the notes is that of the performances for an early operation before a late one
(`noted_early_late`), and whenever an operation was noted before the other one was
(`noted_of_run`). Of operations that are never under way together it is the order of the
performances without more (`noted_eq_done`).
-/

namespace TwoStep

open Transition (Run)
open ListOrder (Before before_concat_iff before_append before_of_grown before_filter_iff
  eq_of_before)

variable {I : Type*}

/-- The operations that were noted and those that were performed, each in order. -/
structure State (I : Type*) where
  noted : List I
  done : List I

/-- The two steps of an operation. -/
inductive Action (I : Type*) where
  | note (i : I)
  | perform (i : I)

/-- Each step is taken once, and the order of the two is that of the operation. -/
inductive Step (early : I → Prop) : State I → Action I → State I → Prop
  | note {s : State I} {i : I} : i ∉ s.noted → (¬ early i → i ∈ s.done) →
      Step early s (.note i) { s with noted := s.noted ++ [i] }
  | perform {s : State I} {i : I} : i ∉ s.done → (early i → i ∈ s.noted) →
      Step early s (.perform i) { s with done := s.done ++ [i] }

/-- The start. -/
def init : State I := ⟨[], []⟩

variable {early : I → Prop} {s s' : State I} {x : Action I} {as : List (Action I)} {a b : I}

/-- What holds in every state: an early operation that was performed is noted, a late operation that
was noted is performed, and an early operation that was performed before a late one is noted before
it. Nothing is noted twice. -/
structure Faithful (early : I → Prop) (s : State I) : Prop where
  nodup : s.noted.Nodup
  early_noted : ∀ i ∈ s.done, early i → i ∈ s.noted
  late_done : ∀ i ∈ s.noted, ¬ early i → i ∈ s.done
  order : ∀ a b, Before s.done a b → early a → ¬ early b → b ∈ s.noted → Before s.noted a b

/-- Every step keeps that. -/
theorem Faithful.step (h : Faithful early s) (hstep : Step early s x s') : Faithful early s' := by
  cases hstep with
  | @note i hnew hlate =>
    have hnodup : (s.noted ++ [i]).Nodup := by
      rw [← List.concat_eq_append]
      exact List.Nodup.concat hnew h.nodup
    refine ⟨hnodup, fun j hj he => List.mem_append_left _ (h.early_noted j hj he), ?_, ?_⟩
    · intro j hj he
      rcases List.mem_append.mp hj with hj | hj
      · exact h.late_done j hj he
      · rw [List.mem_singleton] at hj
        exact hj ▸ hlate (hj ▸ he)
    · intro a b hab ha hb hmem
      rcases List.mem_append.mp hmem with hmem | hmem
      · exact (h.order a b hab ha hb hmem).grow (List.prefix_append _ _)
      · -- The late operation is noted now, and the early one was noted when it was performed.
        exact before_append (h.early_noted a hab.left_mem ha) hmem
  | @perform i hnew hearly =>
    refine ⟨h.nodup, ?_, fun j hj he => List.mem_append_left _ (h.late_done j hj he), ?_⟩
    · intro j hj he
      rcases List.mem_append.mp hj with hj | hj
      · exact h.early_noted j hj he
      · rw [List.mem_singleton] at hj
        exact hj ▸ hearly (hj ▸ he)
    · intro a b hab ha hb hmem
      rcases before_concat_iff.mp hab with hab | ⟨-, rfl⟩
      · exact h.order a b hab ha hb hmem
      · -- A late operation that is performed now was not noted yet.
        exact absurd (h.late_done b hmem hb) hnew

/-- It holds at the end of every run. -/
theorem faithful_run (h : Run (Step early) init as s) : Faithful early s :=
  h.invariant (fun _ _ _ hs hstep => hs.step hstep)
    ⟨by simp [init], by simp [init], by simp [init], by simp [init]⟩

/-- An early operation that was performed before a late one is noted before it. -/
theorem noted_early_late (h : Run (Step early) init as s) (hab : Before s.done a b) (ha : early a)
    (hb : ¬ early b) (hnoted : b ∈ s.noted) : Before s.noted a b :=
  (faithful_run h).order a b hab ha hb hnoted

/-- The notes only grow. -/
theorem noted_grows (h : Run (Step early) s as s') : s.noted <+: s'.noted := by
  induction h with
  | nil s => exact List.prefix_rfl
  | @cons s t u x as hstep _ ih =>
    refine List.IsPrefix.trans ?_ ih
    cases hstep with
    | note => exact List.prefix_append _ _
    | perform => exact List.prefix_rfl

/-- An operation that was noted when another one was not stands before it. -/
theorem noted_of_run (h : Run (Step early) s as s') (ha : a ∈ s.noted) (hb : b ∉ s.noted)
    (hnoted : b ∈ s'.noted) : Before s'.noted a b :=
  before_of_grown (noted_grows h) ha hnoted hb

/-! ## Operations that are not under way together -/

variable {apart : I → I → Prop}

/-- One of the two steps of an operation was taken. -/
def State.UnderWay (s : State I) (i : I) : Prop :=
  i ∈ s.noted ∧ i ∉ s.done ∨ i ∈ s.done ∧ i ∉ s.noted

/-- Of two operations that are to be kept apart, at most one is under way. -/
def State.Alone (apart : I → I → Prop) (s : State I) : Prop :=
  ∀ a b, apart a b → s.UnderWay a → ¬ s.UnderWay b

/-- The steps that keep operations apart. -/
def AloneStep (early : I → Prop) (apart : I → I → Prop) (s : State I) (x : Action I)
    (s' : State I) : Prop :=
  Step early s x s' ∧ s'.Alone apart

/-- What holds in every state, beside what holds without keeping operations apart: the order of the
notes is that of the performances, and an early operation that is noted and not performed stands
behind the ones that were performed. -/
structure Ordered (early : I → Prop) (apart : I → I → Prop) (s : State I) : Prop where
  faithful : Faithful early s
  done_nodup : s.done.Nodup
  alone : s.Alone apart
  order : ∀ a b, Before s.done a b → apart a b → b ∈ s.noted → Before s.noted a b
  pending : ∀ a b, a ∈ s.done → b ∈ s.noted → b ∉ s.done → apart a b → Before s.noted a b

/-- Every step that keeps operations apart keeps that. -/
theorem Ordered.step (h : Ordered early apart s) (hstep : AloneStep early apart s x s') :
    Ordered early apart s' := by
  obtain ⟨hstep, halone⟩ := hstep
  have hfaithful := h.faithful.step hstep
  cases hstep with
  | @note i hnew hlate =>
    refine ⟨hfaithful, h.done_nodup, halone, fun a b hab hapart hb => ?_,
      fun a b ha hb hdone hapart => ?_⟩
    · rcases List.mem_append.mp hb with hb | hb
      · exact (h.order a b hab hapart hb).grow (List.prefix_append _ _)
      · -- The second one was under way before this step, so the first one was not.
        have hnoted : a ∈ s.noted := by
          by_contra hnot
          obtain rfl := List.mem_singleton.mp hb
          exact h.alone a b hapart (.inr ⟨hab.left_mem, hnot⟩) (.inr ⟨hab.right_mem, hnew⟩)
        exact before_append hnoted hb
    · rcases List.mem_append.mp hb with hb | hb
      · exact (h.pending a b ha hb hdone hapart).grow (List.prefix_append _ _)
      · -- The second one is under way after this step, so the first one is not.
        have hnoted : a ∈ s.noted := by
          by_contra hnot
          obtain rfl := List.mem_singleton.mp hb
          have hne : a ≠ b := fun heq => hdone (heq ▸ ha)
          refine halone a b hapart (.inr ⟨ha, ?_⟩) (.inl ⟨List.mem_append_right _ hb, hdone⟩)
          simp [hnot, hne]
        exact before_append hnoted hb
  | @perform i hnew hearly =>
    have hnodup : (s.done ++ [i]).Nodup := by
      rw [← List.concat_eq_append]
      exact List.Nodup.concat hnew h.done_nodup
    refine ⟨hfaithful, hnodup, halone, fun a b hab hapart hb => ?_,
      fun a b ha hb hdone hapart => ?_⟩
    · rcases before_concat_iff.mp hab with hab | ⟨ha, rfl⟩
      · exact h.order a b hab hapart hb
      · exact h.pending a b ha hb hnew hapart
    · have hb' : b ∉ s.done := fun hmem => hdone (List.mem_append_left _ hmem)
      rcases List.mem_append.mp ha with ha | ha
      · exact h.pending a b ha hb hb' hapart
      · -- The second one is under way, so the first one is not, before this step or after it.
        obtain rfl := List.mem_singleton.mp ha
        exfalso
        by_cases hnoted : a ∈ s.noted
        · exact h.alone a b hapart (.inl ⟨hnoted, hnew⟩) (.inl ⟨hb, hb'⟩)
        · exact halone a b hapart (.inr ⟨List.mem_append_right _ ha, hnoted⟩) (.inl ⟨hb, hdone⟩)

/-- It holds at the end of every run. -/
theorem ordered_run (h : Run (AloneStep early apart) init as s) : Ordered early apart s :=
  h.invariant (fun _ _ _ hs hstep => hs.step hstep)
    ⟨⟨by simp [init], by simp [init], by simp [init], by simp [init]⟩, by simp [init],
      by simp [State.Alone, State.UnderWay, init], by simp [init], by simp [init]⟩

/-- When nothing is under way, operations that are all to be kept apart were noted as they were
performed. -/
theorem noted_eq_done (h : Run (AloneStep early apart) init as s)
    (hover : ∀ i, i ∈ s.noted ↔ i ∈ s.done) {p : I → Bool}
    (hp : ∀ a b, Before s.done a b → p a = true → p b = true → apart a b) :
    s.noted.filter p = s.done.filter p := by
  have hs := ordered_run h
  refine (eq_of_before (hs.done_nodup.filter p) (hs.faithful.nodup.filter p) (fun i => ?_)
    fun a b hab => ?_).symm
  · rw [List.mem_filter, List.mem_filter, hover]
  · obtain ⟨hab, ha, hb⟩ := before_filter_iff.mp hab
    exact before_filter_iff.mpr
      ⟨hs.order a b hab (hp a b hab ha hb) ((hover b).mpr hab.right_mem), ha, hb⟩

end TwoStep
