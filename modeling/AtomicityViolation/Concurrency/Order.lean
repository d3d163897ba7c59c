import AtomicityViolation.Concurrency.Machine
import AtomicityViolation.Library.Simulation
import AtomicityViolation.Library.TwoStep

/-!
# The order of the accesses in the log

A store is recorded before it is performed and a load is performed before it is recorded, so the
accesses are two-step operations in the sense of `Library/TwoStep.lean`, with the stores as the
early ones (`step_refine`). The log has a store before every load that read memory after it, and an
access before every one that began after it was over (`recorded_before`). It does not tell the order
of a store and an earlier access that was still under way when the store was probed
(`recorded_inverted`).
-/

namespace AtomicityViolation

namespace Threads

open Transition (Run)
open ListOrder (Before)
open Threads.State

variable {T P : Type*}

/-! ## The numbers of the accesses -/

/-- The accesses so far have numbers below the counts of their threads; a store that is pending is
recorded and not performed, and a load that is pending is performed and not recorded. -/
structure Numbered (s : State T P) : Prop where
  recorded_lt : ∀ i ∈ s.recorded, i.num < s.count i.tid
  done_lt : ∀ i ∈ s.done, i.num < s.count i.tid
  store : ∀ t n, (s.pending t).access = some (n, .store) →
    ⟨t, n, .store⟩ ∈ s.recorded ∧ ⟨t, n, .store⟩ ∉ s.done
  load : ∀ t n, (s.pending t).access = some (n, .load) →
    ⟨t, n, .load⟩ ∈ s.done ∧ ⟨t, n, .load⟩ ∉ s.recorded

/-- The records of accesses change with the log. -/
theorem State.recorded_of_same {s s' : State T P} (h : s'.log = s.log) :
    s'.recorded = s.recorded := by
  rw [recorded, h, recorded]

/-- One more record of an access. -/
theorem State.recorded_of_concat {s s' : State T P} {e : Entry T P} {i : AccessId T}
    (h : s'.log = s.log ++ [e]) (he : e.access = some i) : s'.recorded = s.recorded ++ [i] := by
  simp [recorded, h, he]

/-- No more of them. -/
theorem State.recorded_of_silent {s s' : State T P}
    (h : s'.log = s.log ∨ ∃ e : Entry T P, e.access = none ∧ s'.log = s.log ++ [e]) :
    s'.recorded = s.recorded := by
  rcases h with h | ⟨e, he, h⟩
  · exact recorded_of_same h
  · simp [recorded, h, he]

/-- The accesses that took effect change with the performed ones. -/
theorem State.done_of_same {s s' : State T P} (h : s'.performed = s.performed) :
    s'.done = s.done := by
  rw [done, h, done]

/-- One more access that takes effect. -/
theorem State.done_of_concat {s s' : State T P} {a : Access T P} {i : AccessId T}
    (h : s'.performed = s.performed ++ [a]) (ha : a.id = i) : s'.done = s.done ++ [i] := by
  simp [done, h, ha]

/-- It holds at the start. -/
theorem numbered_init (memory : P → Cell P) : Numbered (init memory : State T P) :=
  ⟨by simp [init, recorded], by simp [init, done], by simp [init, Pending.access],
    by simp [init, Pending.access]⟩

variable [DecidableEq T] {s s' : State T P}

/-- Where the threads are after one of them goes somewhere. -/
theorem State.access_goto (t : T) (p : Pending T P) (u : T) :
    ((s.goto t p).pending u).access = if u = t then p.access else (s.pending u).access := by
  simp only [goto, Function.update_apply]
  split_ifs <;> rfl

/-- Going to a place outside the accesses leaves alone the threads that are in one. -/
theorem State.access_goto_none {r : State T P} {t : T} {p : Pending T P} (hp : p.access = none)
    (hpending : r.pending = s.pending) (hguards : ∀ u, u ≠ t → r.guardsOf u = s.guardsOf u) (u : T)
    (i : ℕ × Op) (h : ((r.goto t p).pending u).access = some i) :
    (s.pending u).access = some i ∧ (r.goto t p).guardsOf u = s.guardsOf u := by
  rw [access_goto, hp, hpending] at h
  split_ifs at h with hu
  exact ⟨h, hguards u hu⟩

/-- The counts after a thread has begun an access. -/
theorem State.count_counted (t u : T) :
    (s.counted t).count u = if u = t then s.count t + 1 else s.count u :=
  Function.update_apply ..

variable [DecidableEq P] {src : Source} {x : Action T P} {as : List (Action T P)}

/-- What a step does to the accesses: it takes one of the two steps of a store or of a load, or it
records and performs none, begins none, and leaves the guards alone of the threads that are in
one. -/
inductive AccessStep (s s' : State T P) : Prop
  | storeProbe {t : T} {e : Entry T P} : (∀ u, s'.count u = (s.counted t).count u) →
      (∀ u, (s'.pending u).access =
        if u = t then some (s.count t, .store) else (s.pending u).access) →
      e.access = some ⟨t, s.count t, .store⟩ → e.held = s.guardsOf t →
      s'.log = s.log ++ [e] → s'.performed = s.performed → s'.held = s.held → AccessStep s s'
  | store {t : T} {n : ℕ} {a : Access T P} : (s.pending t).access = some (n, .store) →
      s'.count = s.count →
      (∀ u, (s'.pending u).access = if u = t then none else (s.pending u).access) →
      a.id = ⟨t, n, .store⟩ → a.held = s.guardsOf t →
      s'.log = s.log → s'.performed = s.performed ++ [a] → s'.held = s.held → AccessStep s s'
  | load {t : T} {a : Access T P} : (∀ u, s'.count u = (s.counted t).count u) →
      (∀ u, (s'.pending u).access =
        if u = t then some (s.count t, .load) else (s.pending u).access) →
      a.id = ⟨t, s.count t, .load⟩ → a.held = s.guardsOf t →
      s'.log = s.log → s'.performed = s.performed ++ [a] → s'.held = s.held → AccessStep s s'
  | loadProbe {t : T} {n : ℕ} {e : Entry T P} : (s.pending t).access = some (n, .load) →
      s'.count = s.count →
      (∀ u, (s'.pending u).access = if u = t then none else (s.pending u).access) →
      e.access = some ⟨t, n, .load⟩ → e.held = s.guardsOf t →
      s'.log = s.log ++ [e] → s'.performed = s.performed → s'.held = s.held → AccessStep s s'
  | other : s'.count = s.count →
      (∀ u i, (s'.pending u).access = some i →
        (s.pending u).access = some i ∧ s'.guardsOf u = s.guardsOf u) →
      (s'.log = s.log ∨ ∃ e, e.access = none ∧ s'.log = s.log ++ [e]) →
      s'.performed = s.performed → AccessStep s s'

/-- Every step does one of these. -/
theorem Step.accessStep (hstep : Step src s x s') : AccessStep s s' := by
  cases hstep with
  | storeProbe => exact .storeProbe (fun _ => rfl) (access_goto _ _) rfl rfl rfl rfl rfl
  | store ht => exact .store (by rw [ht]; rfl) rfl (access_goto _ _) rfl rfl rfl rfl rfl
  | load => exact .load (fun _ => rfl) (access_goto _ _) rfl rfl rfl rfl rfl
  | loadProbe ht => exact .loadProbe (by rw [ht]; rfl) rfl (access_goto _ _) rfl rfl rfl rfl rfl
  | lockProbe =>
    exact .other rfl (access_goto_none rfl rfl fun _ _ => rfl) (.inr ⟨_, rfl, rfl⟩) rfl
  | unlockProbe =>
    exact .other rfl (access_goto_none rfl rfl fun _ _ => rfl) (.inr ⟨_, rfl, rfl⟩) rfl
  | write => exact .other rfl (fun _ _ hi => ⟨hi, rfl⟩) (.inl rfl) rfl
  | move => exact .other rfl (fun _ _ hi => ⟨hi, rfl⟩) (.inl rfl) rfl
  | lockBare => exact .other rfl (access_goto_none rfl rfl fun _ _ => rfl) (.inl rfl) rfl
  | unlockBare => exact .other rfl (access_goto_none rfl rfl fun _ _ => rfl) (.inl rfl) rfl
  | acquire =>
    exact .other rfl (access_goto_none rfl rfl fun _ hu => guardsOf_grant_of_ne _ hu ..)
      (.inl rfl) rfl
  | release =>
    exact .other rfl (access_goto_none rfl rfl fun _ hu => guardsOf_drop_of_ne _ hu) (.inl rfl) rfl

/-- Every step keeps the numbers. -/
theorem Numbered.step (h : Numbered s) (hstep : Step src s x s') : Numbered s' := by
  obtain ⟨hrec, hdone, hstore, hload⟩ := h
  -- A new access gets the count of its thread, which no access so far has.
  have hfresh : ∀ t op, ⟨t, s.count t, op⟩ ∉ s.recorded ∧ ⟨t, s.count t, op⟩ ∉ s.done :=
    fun t op => ⟨fun hm => lt_irrefl _ (hrec _ hm), fun hm => lt_irrefl _ (hdone _ hm)⟩
  cases hstep.accessStep with
  | @storeProbe t e hcount hpending he _ hlog hperformed =>
    have hrec' := recorded_of_concat hlog he
    have hdone' := done_of_same hperformed
    constructor <;> grind [count_counted]
  | @store t n a ht hcount hpending ha _ hlog hperformed =>
    have hrec' := recorded_of_same hlog
    have hdone' := done_of_concat hperformed ha
    constructor <;> grind
  | @load t a hcount hpending ha _ hlog hperformed =>
    have hrec' := recorded_of_same hlog
    have hdone' := done_of_concat hperformed ha
    constructor <;> grind [count_counted]
  | @loadProbe t n e ht hcount hpending he _ hlog hperformed =>
    have hrec' := recorded_of_concat hlog he
    have hdone' := done_of_same hperformed
    constructor <;> grind
  | other hcount hpending hlog hperformed =>
    have hrec' : s'.recorded = s.recorded := recorded_of_silent hlog
    have hdone' := done_of_same hperformed
    constructor <;> grind

/-- The guards that a record tells of are those that its thread holds when the access takes
effect. -/
structure Agree (s : State T P) : Prop where
  agree : ∀ e ∈ s.log, ∀ a ∈ s.performed, e.access = some a.id → e.held = a.held
  store : ∀ t n, (s.pending t).access = some (n, .store) →
    ∀ e ∈ s.log, e.access = some ⟨t, n, .store⟩ → e.held = s.guardsOf t
  load : ∀ t n, (s.pending t).access = some (n, .load) →
    ∀ a ∈ s.performed, a.id = ⟨t, n, .load⟩ → a.held = s.guardsOf t

omit [DecidableEq P] in
/-- It holds at the start. -/
theorem agree_init (memory : P → Cell P) : Agree (init memory : State T P) :=
  ⟨by simp [init], by simp [init], by simp [init]⟩

/-- Every step keeps that. -/
theorem Agree.step (h : Agree s) (hnum : Numbered s) (hstep : Step src s x s') : Agree s' := by
  obtain ⟨hagree, hstore, hload⟩ := h
  -- A number that is new has no record and no effect.
  have hrec : ∀ e ∈ s.log, ∀ i, e.access = some i → i.num < s.count i.tid :=
    fun e he i hi => hnum.recorded_lt i (List.mem_filterMap.mpr ⟨e, he, hi⟩)
  have hdone : ∀ a ∈ s.performed, a.id.num < s.count a.id.tid :=
    fun a ha => hnum.done_lt a.id (List.mem_map_of_mem ha)
  -- Between the two steps of an access its thread acquires and releases nothing.
  cases hstep.accessStep with
  | storeProbe | store | load | loadProbe | other =>
    constructor <;> grind [State.guardsOf]

/-! ## The accesses as two-step operations -/

/-- The two lists of a state. -/
def State.twoStep (s : State T P) : TwoStep.State (AccessId T) := ⟨s.recorded, s.done⟩

/-- The stores are recorded before they are performed. -/
def AccessId.IsStore (i : AccessId T) : Prop := i.op = .store

/-- A step is one of the two steps of an access, or changes nothing. -/
theorem Step.refine (h : Numbered s) (hstep : Step src s x s') :
    ∃ bs, Run (TwoStep.Step AccessId.IsStore) s.twoStep bs s'.twoStep := by
  have hload : ∀ t n, ¬ (⟨t, n, .load⟩ : AccessId T).IsStore := fun t n he => by cases he
  unfold State.twoStep
  cases hstep.accessStep with
  | storeProbe _ _ he _ hlog hperformed =>
    -- The record of a store is the first of its steps.
    rw [recorded_of_concat hlog he, done_of_same hperformed]
    exact ⟨_, .single (.note (fun hm => lt_irrefl _ (h.recorded_lt _ hm)) fun he => absurd rfl he)⟩
  | store ht _ _ ha _ hlog hperformed =>
    rw [recorded_of_same hlog, done_of_concat hperformed ha]
    -- Its effect is the second, and the record is there.
    exact ⟨_, .single (.perform (h.store _ _ ht).2 fun _ => (h.store _ _ ht).1)⟩
  | load _ _ ha _ hlog hperformed =>
    rw [recorded_of_same hlog, done_of_concat hperformed ha]
    exact ⟨_, .single (.perform (fun hm => lt_irrefl _ (h.done_lt _ hm))
      fun he => absurd he (hload _ _))⟩
  | loadProbe ht _ _ he _ hlog hperformed =>
    rw [recorded_of_concat hlog he, done_of_same hperformed]
    exact ⟨_, .single (.note (h.load _ _ ht).2 fun _ => (h.load _ _ ht).1)⟩
  | other _ _ hlog hperformed =>
    -- No access is recorded, and none is performed.
    rw [recorded_of_silent hlog, done_of_same hperformed]
    exact ⟨[], .nil _⟩

/-- The accesses of a run are a run of two-step operations. -/
theorem run_twoStep (h : Numbered s) (hrun : Run (Step src) s as s') :
    Numbered s' ∧ ∃ bs, Run (TwoStep.Step AccessId.IsStore) s.twoStep bs s'.twoStep := by
  have hstep : ∀ (s : State T P) (t : TwoStep.State (AccessId T)) (x : Action T P) (s' : State T P),
      Numbered s ∧ t = s.twoStep → Step src s x s' →
      ∃ bs t', Run (TwoStep.Step AccessId.IsStore) t bs t' ∧ Numbered s' ∧ t' = s'.twoStep := by
    rintro s _ x s' ⟨hs, rfl⟩ hstep
    obtain ⟨bs, hbs⟩ := hstep.refine hs
    exact ⟨bs, _, hbs, hs.step hstep, rfl⟩
  obtain ⟨bs, _, hbs, hs', rfl⟩ := hrun.refine hstep ⟨h, rfl⟩
  exact ⟨hs', bs, hbs⟩

/-- An access is over in a state: it was performed and recorded. -/
def State.Over (s : State T P) (a : AccessId T) : Prop := a ∈ s.recorded ∧ a ∈ s.done

/-- An access was begun in a state: it was recorded or performed. -/
def State.Begun (s : State T P) (a : AccessId T) : Prop := a ∈ s.recorded ∨ a ∈ s.done

/-- The log has two accesses in the order in which they took effect on memory, if the first is a
store and the second a load, and if the first was over before the second was begun. -/
theorem recorded_before {memory : P → Cell P} (h : Run (Step src) (init memory) as s)
    {a b : Access T P} (hab : Before s.performed a b) (hb : b.id ∈ s.recorded)
    (hcase : a.id.op = .store ∧ b.id.op = .load ∨
      ∃ as₁ as₂ s₁, as = as₁ ++ as₂ ∧ Run (Step src) (init memory) as₁ s₁ ∧
        Run (Step src) s₁ as₂ s ∧ s₁.Over a.id ∧ ¬ s₁.Begun b.id) :
    s.recorded.Nodup ∧ Before s.recorded a.id b.id := by
  obtain ⟨-, bs, hbs⟩ := run_twoStep (numbered_init memory) h
  have hdone : Before s.twoStep.done a.id b.id := hab.map Access.id
  refine ⟨(TwoStep.faithful_run hbs).nodup, ?_⟩
  rcases hcase with ⟨hstore, hload⟩ | ⟨as₁, as₂, s₁, -, h₁, h₂, hover, hbegun⟩
  · have hlate : ¬ b.id.IsStore := by simp [AccessId.IsStore, hload]
    exact TwoStep.noted_early_late hbs hdone hstore hlate hb
  · -- Between `s₁` and `s` the record of `b` is added to a log that has that of `a`.
    obtain ⟨hnum, -⟩ := run_twoStep (numbered_init memory) h₁
    obtain ⟨-, cs, hcs⟩ := run_twoStep hnum h₂
    exact TwoStep.noted_of_run hcs hover.1 (fun hm => hbegun (.inl hm)) hb

/-- One thread stores, and another one loads what it stored. -/
theorem recorded_before_handOver : ∃ s : State Bool ℕ,
    (∃ as, Run (Step .helloWorldCpp) (init fun _ => .data) as s) ∧ s.recorded.Nodup ∧
    Before s.recorded ⟨true, 0, .store⟩ ⟨false, 0, .load⟩ := by
  let loc : Location := ⟨1, []⟩
  have hrun : ∃ s : State Bool ℕ, Run (Step .helloWorldCpp) (init fun _ => .data)
      [.storeProbe true loc 0, .store true .data, .load false 0, .loadProbe false loc] s ∧
      s.performed = [⟨⟨true, 0, .store⟩, 0, []⟩, ⟨⟨false, 0, .load⟩, 0, []⟩] ∧
      s.recorded = [⟨true, 0, .store⟩, ⟨false, 0, .load⟩] :=
    ⟨_, .cons (.storeProbe rfl) (.cons (.store rfl) (.cons (.load rfl)
      (.single (.loadProbe rfl)))), rfl, rfl⟩
  obtain ⟨s, hrun, hperformed, hrecorded⟩ := hrun
  exact ⟨s, ⟨_, hrun⟩, recorded_before hrun
    (a := ⟨⟨true, 0, .store⟩, 0, []⟩) (b := ⟨⟨false, 0, .load⟩, 0, []⟩)
    (by rw [hperformed]; decide) (by rw [hrecorded]; decide) (.inl ⟨rfl, rfl⟩)⟩

/-- A store is probed, and before it is performed another thread stores to the address. -/
theorem recorded_inverted : ¬ ∀ (src : Source) (as : List (Action Bool ℕ)) (s : State Bool ℕ),
    Run (Step src) (init fun _ => .data) as s → ∀ a b : Access Bool ℕ,
    Before s.performed a b → a.id.tid ≠ b.id.tid → a.addr = b.addr →
    a.id.op = .store ∨ b.id.op = .store → s.Over a.id → s.Over b.id →
    Before s.recorded a.id b.id := by
  intro hall
  let loc : Location := ⟨1, []⟩
  have hrun : ∃ s : State Bool ℕ, Run (Step .helloWorldCpp) (init fun _ => .data)
      [.storeProbe true loc 0, .storeProbe false loc 0, .store false .data, .store true .data] s ∧
      s.performed = [⟨⟨false, 0, .store⟩, 0, []⟩, ⟨⟨true, 0, .store⟩, 0, []⟩] ∧
      s.recorded = [⟨true, 0, .store⟩, ⟨false, 0, .store⟩] :=
    ⟨_, .cons (.storeProbe rfl) (.cons (.storeProbe rfl) (.cons (.store rfl)
      (.single (.store rfl)))), rfl, rfl⟩
  obtain ⟨s, hrun, hperformed, hrecorded⟩ := hrun
  have hinv := hall _ _ s hrun ⟨⟨false, 0, .store⟩, 0, []⟩ ⟨⟨true, 0, .store⟩, 0, []⟩
    (by rw [hperformed]; decide) (by decide) rfl (.inl rfl)
    (by simp [State.Over, State.done, hperformed, hrecorded])
    (by simp [State.Over, State.done, hperformed, hrecorded])
  rw [hrecorded] at hinv
  exact absurd hinv (by decide)

end Threads

end AtomicityViolation
