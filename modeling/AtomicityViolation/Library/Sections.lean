import AtomicityViolation.Library.Before
import AtomicityViolation.Library.Run

/-!
# Records written while something is held

Things are granted, held for a while and dropped, and records are written that say what was held
when they were written. Some things exclude each other: one is not granted while the other is held.
Then the records of the one stand apart from those of the other: all of the thing that was granted
first stand before all of the other (`records_apart`).
-/

namespace Sections

open Transition (Run)
open ListOrder (Before before_append before_concat_iff before_or_before)

variable {G E : Type*} [DecidableEq G]

/-- What is held, what was granted so far, and the records. -/
structure State (G E : Type*) where
  holding : List G
  granted : List G
  log : List E

/-- The steps. -/
inductive Action (G E : Type*) where
  | grant (g : G)
  | drop (g : G)
  | record (e : E)

/-- Nothing is granted twice, nor while something is held that excludes it, and a record tells of
nothing that is not held. -/
inductive Step (excludes : G → G → Prop) (holds : E → List G) :
    State G E → Action G E → State G E → Prop
  | grant {s : State G E} {g : G} : g ∉ s.granted → (∀ h ∈ s.holding, ¬ excludes h g) →
      Step excludes holds s (.grant g) ⟨s.holding ++ [g], s.granted ++ [g], s.log⟩
  | drop {s : State G E} {g : G} :
      Step excludes holds s (.drop g) ⟨s.holding.erase g, s.granted, s.log⟩
  | record {s : State G E} {e : E} : (∀ g ∈ holds e, g ∈ s.holding) →
      Step excludes holds s (.record e) ⟨s.holding, s.granted, s.log ++ [e]⟩

/-- The start. -/
def init : State G E := ⟨[], [], []⟩

/-- The records of `g` stand before those of `h`. -/
def Apart (holds : E → List G) (log : List E) (g h : G) : Prop :=
  ∀ (i j : ℕ) (d e : E), log[i]? = some d → log[j]? = some e → g ∈ holds d → h ∈ holds e → i < j

variable {excludes : G → G → Prop} {holds : E → List G} {s s' : State G E} {x : Action G E}
  {as : List (Action G E)} {g h : G} {log : List E} {e : E}

omit [DecidableEq G] in
/-- An entry of a list with one more element is an entry of the list or the new element. -/
theorem getElem?_concat {i : ℕ} {d : E} (hi : (log ++ [e])[i]? = some d) :
    log[i]? = some d ∨ i = log.length ∧ d = e := by
  rcases Nat.lt_trichotomy i log.length with hlt | heq | hgt
  · exact .inl (by rwa [List.getElem?_append_left hlt] at hi)
  · subst heq
    exact .inr ⟨rfl, by simpa using hi.symm⟩
  · rw [List.getElem?_eq_none (by simp; omega)] at hi
    cases hi

omit [DecidableEq G] in
/-- Records stay apart when a record is added that is not of the first. -/
theorem Apart.concat (hap : Apart holds log g h) (hg : g ∉ holds e) :
    Apart holds (log ++ [e]) g h := by
  intro i j d d' hi hj hgd hhd
  rcases getElem?_concat hi with hi | ⟨-, rfl⟩
  · have hlt := (List.getElem?_eq_some_iff.mp hi).1
    rcases getElem?_concat hj with hj | ⟨rfl, -⟩
    · exact hap i j d d' hi hj hgd hhd
    · exact hlt
  · exact absurd hgd hg

omit [DecidableEq G] in
/-- What records say of two things whose records stand apart stands in their order. -/
theorem Apart.before {f : E → Option G} (hap : Apart holds log g h)
    (hf : ∀ e ∈ log, ∀ k, f e = some k → k ∈ holds e) (hg : g ∈ log.filterMap f)
    (hh : h ∈ log.filterMap f) : Before (log.filterMap f) g h := by
  obtain ⟨d, hd, hdg⟩ := List.mem_filterMap.mp hg
  obtain ⟨e, he, heh⟩ := List.mem_filterMap.mp hh
  obtain ⟨i, hi⟩ := List.mem_iff_getElem?.mp hd
  obtain ⟨j, hj⟩ := List.mem_iff_getElem?.mp he
  have hlt := hap i j d e hi hj (hf d hd g hdg) (hf e he h heh)
  have hbefore : Before log d e := by
    rw [← List.take_append_drop j log]
    refine before_append (List.mem_of_getElem? (i := i) ?_) (List.mem_of_getElem? (i := 0) ?_)
    · rwa [List.getElem?_take_of_lt hlt]
    · simpa using hj
  simpa [Before, hdg, heh] using List.Sublist.filterMap f hbefore

/-- What holds in every state: what is held, and what records tell of, was granted; and of two
things of which the first excludes the second, the one granted first is no longer held and its
records are all before those of the other. -/
structure Separated (excludes : G → G → Prop) (holds : E → List G) (s : State G E) : Prop where
  held_granted : ∀ g ∈ s.holding, g ∈ s.granted
  told_granted : ∀ e ∈ s.log, ∀ g ∈ holds e, g ∈ s.granted
  passed : ∀ g h, Before s.granted g h → excludes g h → g ∉ s.holding
  apart : ∀ g h, Before s.granted g h → excludes g h → Apart holds s.log g h

/-- Every step keeps that. -/
theorem Separated.step (hs : Separated excludes holds s) (hstep : Step excludes holds s x s') :
    Separated excludes holds s' := by
  cases hstep with
  | @grant k hnew hfree =>
    refine ⟨?_, fun e he g hg => List.mem_append_left _ (hs.told_granted e he g hg), ?_, ?_⟩
    · intro g hg
      exact (List.mem_append.mp hg).elim (fun hg => List.mem_append_left _ (hs.held_granted g hg))
        (List.mem_append_right _)
    · intro g h hgh hex hmem
      -- Nothing that is held excludes what is granted now, which was not granted before.
      rcases before_concat_iff.mp hgh with hgh | ⟨hg, rfl⟩
      · rcases List.mem_append.mp hmem with hmem | hmem
        · exact hs.passed g h hgh hex hmem
        · exact hnew (List.mem_singleton.mp hmem ▸ hgh.left_mem)
      · rcases List.mem_append.mp hmem with hmem | hmem
        · exact hfree g hmem hex
        · exact hnew (List.mem_singleton.mp hmem ▸ hg)
    · intro g h hgh hex
      rcases before_concat_iff.mp hgh with hgh | ⟨-, rfl⟩
      · exact hs.apart g h hgh hex
      · -- No record tells of what is granted only now.
        intro i j d e hi hj hg hh
        exact absurd (hs.told_granted e (List.mem_of_getElem? hj) _ hh) hnew
  | @drop k =>
    exact ⟨fun g hg => hs.held_granted g (List.mem_of_mem_erase hg), hs.told_granted,
      fun g h hgh hex hmem => hs.passed g h hgh hex (List.mem_of_mem_erase hmem), hs.apart⟩
  | @record e hheld =>
    refine ⟨hs.held_granted, ?_, hs.passed, ?_⟩
    · intro d hd g hg
      rcases List.mem_append.mp hd with hd | hd
      · exact hs.told_granted d hd g hg
      · rw [List.mem_singleton.mp hd] at hg
        exact hs.held_granted g (hheld g hg)
    · -- The new record is not of the one that was granted first, which is no longer held.
      intro g h hgh hex
      exact (hs.apart g h hgh hex).concat fun hg => hs.passed g h hgh hex (hheld g hg)

/-- It holds at the end of every run. -/
theorem separated_run (hrun : Run (Step excludes holds) init as s) : Separated excludes holds s :=
  hrun.invariant (fun _ _ _ hs hstep => hs.step hstep)
    ⟨by simp [init], by simp [init], by simp [init], by simp [init]⟩

/-- Nothing is held twice. -/
theorem nodup_holding (hrun : Run (Step excludes holds) init as s) : s.holding.Nodup := by
  have hinv : Separated excludes holds s ∧ s.holding.Nodup := by
    refine hrun.invariant (I := fun s => Separated excludes holds s ∧ s.holding.Nodup)
      (fun s x s' hs hstep => ⟨hs.1.step hstep, ?_⟩) ⟨separated_run (.nil init), by simp [init]⟩
    cases hstep with
    | grant hnew =>
      rw [← List.concat_eq_append]
      exact List.Nodup.concat (fun hmem => hnew (hs.1.held_granted _ hmem)) hs.2
    | drop => exact hs.2.erase _
    | record => exact hs.2
  exact hinv.2

/-- Nothing is granted twice. -/
theorem nodup_granted (hrun : Run (Step excludes holds) init as s) : s.granted.Nodup := by
  refine hrun.invariant (I := fun s => s.granted.Nodup) (fun s x s' hs hstep => ?_) (by simp [init])
  cases hstep with
  | @grant g hnew =>
    show (s.granted ++ [g]).Nodup
    rw [← List.concat_eq_append]
    exact List.Nodup.concat hnew hs
  | drop => exact hs
  | record => exact hs

/-- Of two things that exclude each other, one is not held. -/
theorem Separated.exclusive (hs : Separated excludes holds s) (hgh : excludes g h)
    (hhg : excludes h g) (hg : g ∈ s.holding) (hh : h ∈ s.holding) : g = h := by
  by_contra hne
  rcases before_or_before (hs.held_granted g hg) (hs.held_granted h hh) hne with hb | hb
  · exact hs.passed g h hb hgh hg
  · exact hs.passed h g hb hhg hh

/-- The records of two things that exclude each other stand apart. -/
theorem records_apart (hrun : Run (Step excludes holds) init as s) (hg : g ∈ s.granted)
    (hh : h ∈ s.granted) (hne : g ≠ h) (hgh : excludes g h) (hhg : excludes h g) :
    Apart holds s.log g h ∨ Apart holds s.log h g := by
  have hsep := separated_run hrun
  rcases before_or_before hg hh hne with hb | hb
  · exact .inl (hsep.apart g h hb hgh)
  · exact .inr (hsep.apart h g hb hhg)

end Sections
