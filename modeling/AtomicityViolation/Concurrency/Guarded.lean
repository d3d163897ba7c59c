import AtomicityViolation.Concurrency.CriticalSections
import AtomicityViolation.Concurrency.Order

/-!
# Accesses under a common lock

Two stores that no lock keeps apart can be recorded in the other order than they take effect
(`recorded_inverted`). Where the threads hold guards that exclude each other, the two steps of one
access are not interleaved with those of the other, so the log has the two accesses in the order in
which they take effect (`guarded_order`). When all threads are between operations, the records of
an address that is always accessed so are its accesses, in their order (`guarded_log`).
-/

namespace AtomicityViolation

namespace Threads

open Transition (Run)
open ListOrder (Before)
open Threads.State

variable {T P : Type*}

/-- What a record tells of an access: which one it is, its address, and the guards of its thread. -/
def Entry.effect (e : Entry T P) : Option (Access T P) :=
  e.access.map fun i => ⟨i, e.call.addr, e.held⟩

/-- What a record tells of. -/
theorem Entry.of_effect {e : Entry T P} {a : Access T P} (h : e.effect = some a) :
    e.call.op = a.id.op ∧ e.call.addr = a.addr ∧ e.tid = a.id.tid := by
  obtain ⟨i, hi, rfl⟩ := Option.map_eq_some_iff.mp h
  unfold Entry.access at hi
  split at hi
  · obtain rfl := Option.some.inj hi
    exact ⟨rfl, rfl, rfl⟩
  · cases hi

/-- What the log tells of the accesses, in order. -/
def State.told (s : State T P) : List (Access T P) := s.log.filterMap Entry.effect

/-- The accesses with what the log tells of them, and as they took effect. -/
def State.effects (s : State T P) : TwoStep.State (Access T P) := ⟨s.told, s.performed⟩

/-- Stores are recorded before they take effect. -/
def Access.IsStore (a : Access T P) : Prop := a.id.op = .store

/-- Two accesses that are not made at the same time: they are of one thread, or made under guards
that exclude each other. -/
def Access.Apart (a b : Access T P) : Prop :=
  a ≠ b ∧ (a.id.tid = b.id.tid ∨ ∃ g ∈ a.held, ∃ h ∈ b.held, g.Excludes h)

/-- The access that a thread is in, from its place and its guards. -/
def Pending.current (t : T) (gs : List (Guard T P)) : Pending T P → Option (Access T P)
  | .store n x => some ⟨⟨t, n, .store⟩, x, gs⟩
  | .load n x => some ⟨⟨t, n, .load⟩, x, gs⟩
  | _ => none

variable [DecidableEq T]

/-- The access that a thread is in. -/
def State.current (s : State T P) (t : T) : Option (Access T P) :=
  (s.pending t).current t (s.guardsOf t)

/-- A thread is in an access of its own, with the guards that it holds. -/
theorem State.current_own {s : State T P} {t : T} {a : Access T P} (h : s.current t = some a) :
    a.id.tid = t ∧ a.held = s.guardsOf t := by
  unfold State.current at h
  cases hp : s.pending t <;> simp only [hp, Pending.current] at h <;> cases h <;> exact ⟨rfl, rfl⟩

/-- Where the threads are after one of them goes somewhere. -/
theorem State.current_goto {s r : State T P} {t : T} {p : Pending T P}
    (hpending : r.pending = s.pending) (hguards : ∀ u, u ≠ t → r.guardsOf u = s.guardsOf u)
    (u : T) : (r.goto t p).current u =
      if u = t then p.current t (r.guardsOf t) else s.current u := by
  unfold State.current
  split_ifs with hu
  · subst hu
    rw [pending_goto_self]
    rfl
  · rw [pending_goto_of_ne _ hu, hpending, ← hguards u hu]
    rfl

variable [DecidableEq P] {src : Source} {s s' : State T P} {x : Action T P}
  {as : List (Action T P)}

/-- What a step does to the accesses: one begins or ends, or nothing changes. A store begins with
its record and ends with its effect, and a load the other way round. -/
inductive EffectStep (s s' : State T P) : Prop
  | begins {a : Access T P} : a.id.num = s.count a.id.tid → s.current a.id.tid = none →
      (∀ u, s'.count u = (s.counted a.id.tid).count u) →
      (∀ u, s'.current u = if u = a.id.tid then some a else s.current u) →
      (a.IsStore ∧ s'.told = s.told ++ [a] ∧ s'.performed = s.performed ∨
        ¬ a.IsStore ∧ s'.told = s.told ∧ s'.performed = s.performed ++ [a]) → EffectStep s s'
  | ends {a : Access T P} : s.current a.id.tid = some a → s'.count = s.count →
      (∀ u, s'.current u = if u = a.id.tid then none else s.current u) →
      (a.IsStore ∧ s'.told = s.told ∧ s'.performed = s.performed ++ [a] ∨
        ¬ a.IsStore ∧ s'.told = s.told ++ [a] ∧ s'.performed = s.performed) → EffectStep s s'
  | other : s'.count = s.count → (∀ u, s'.current u = s.current u) → s'.told = s.told →
      s'.performed = s.performed → EffectStep s s'

omit [DecidableEq P] in
/-- A record of an access. -/
theorem State.told_probe {t : T} {call : ProbeCall P} {n : ℕ} :
    (s.probe t call (.access n)).told =
      s.told ++ [⟨⟨t, n, call.op⟩, call.addr, s.guardsOf t⟩] := by
  simp [State.told, State.probe, List.filterMap_append, Entry.effect, Entry.access]

omit [DecidableEq P] in
/-- A record of something else. -/
theorem State.told_probe_of_none {t : T} {call : ProbeCall P} {subject : Subject T P}
    (h : ∀ n, subject ≠ .access n) : (s.probe t call subject).told = s.told := by
  cases subject with
  | access n => exact absurd rfl (h n)
  | acquisition | release => simp [State.told, State.probe, Entry.effect, Entry.access]

omit [DecidableEq P] in
/-- A thread that goes from one place outside the accesses to another one. -/
theorem State.current_goto_none {r : State T P} {t : T} {p : Pending T P}
    (ht : s.current t = none) (hp : ∀ gs, p.current t gs = none) (hpending : r.pending = s.pending)
    (hguards : ∀ u, u ≠ t → r.guardsOf u = s.guardsOf u) (u : T) :
    (r.goto t p).current u = s.current u := by
  rw [current_goto hpending hguards]
  split_ifs with hu
  · rw [hu, ht, hp]
  · rfl

/-- Every step does one of these. -/
theorem Step.effectStep (hstep : Step src s x s') : EffectStep s s' := by
  have hidle : ∀ {t : T} {p : Pending T P}, s.pending t = p → (∀ gs, p.current t gs = none) →
      s.current t = none := fun ht hp => by rw [State.current, ht, hp]
  cases hstep with
  | @storeProbe t loc y ht =>
    exact .begins (a := ⟨⟨t, s.count t, .store⟩, y, s.guardsOf t⟩) rfl (hidle ht fun _ => rfl)
      (fun _ => rfl) (current_goto rfl fun _ _ => rfl) (.inl ⟨rfl, told_probe, rfl⟩)
  | @store t n y value ht =>
    have hcurrent : s.current t = some ⟨⟨t, n, .store⟩, y, s.guardsOf t⟩ := by
      rw [State.current, ht]; rfl
    exact .ends (a := ⟨⟨t, n, .store⟩, y, s.guardsOf t⟩) hcurrent rfl
      (current_goto rfl fun _ _ => rfl) (.inl ⟨rfl, rfl, rfl⟩)
  | @load t y ht =>
    exact .begins (a := ⟨⟨t, s.count t, .load⟩, y, s.guardsOf t⟩) rfl (hidle ht fun _ => rfl)
      (fun _ => rfl) (current_goto rfl fun _ _ => rfl) (.inr ⟨by simp [Access.IsStore], rfl, rfl⟩)
  | @loadProbe t n y loc ht =>
    have hcurrent : s.current t = some ⟨⟨t, n, .load⟩, y, s.guardsOf t⟩ := by
      rw [State.current, ht]; rfl
    exact .ends (a := ⟨⟨t, n, .load⟩, y, s.guardsOf t⟩) hcurrent rfl
      (current_goto rfl fun _ _ => rfl)
      (.inr ⟨by simp [Access.IsStore], told_probe, rfl⟩)
  | write => exact .other rfl (fun _ => rfl) rfl rfl
  | move => exact .other rfl (fun _ => rfl) rfl rfl
  | lockProbe ht =>
    exact .other rfl
      (current_goto_none (hidle ht fun _ => rfl) (fun _ => rfl) rfl fun _ _ => rfl)
      (told_probe_of_none (by simp)) rfl
  | unlockProbe ht =>
    exact .other rfl
      (current_goto_none (hidle ht fun _ => rfl) (fun _ => rfl) rfl fun _ _ => rfl)
      (told_probe_of_none (by simp)) rfl
  | lockBare ht | unlockBare ht =>
    exact .other rfl
      (current_goto_none (hidle ht fun _ => rfl) (fun _ => rfl) rfl fun _ _ => rfl) rfl rfl
  | acquire ht =>
    exact .other rfl (current_goto_none (hidle ht fun _ => rfl) (fun _ => rfl) rfl
      fun _ hu => guardsOf_grant_of_ne _ hu ..) rfl rfl
  | release ht =>
    exact .other rfl (current_goto_none (hidle ht fun _ => rfl) (fun _ => rfl) rfl
      fun _ hu => guardsOf_drop_of_ne _ hu) rfl rfl

/-- What holds in every state: the accesses so far have numbers below the counts of their threads,
their identities tell them apart, and those that are under way are the ones that the threads are
in. -/
structure Traced (s : State T P) : Prop where
  lt : ∀ a, a ∈ s.told ∨ a ∈ s.performed → a.id.num < s.count a.id.tid
  unique : ∀ a b, a ∈ s.told ∨ a ∈ s.performed → b ∈ s.told ∨ b ∈ s.performed → a.id = b.id → a = b
  under_way : ∀ a, s.effects.UnderWay a → s.current a.id.tid = some a
  store : ∀ t a, s.current t = some a → a.IsStore → a ∈ s.told ∧ a ∉ s.performed
  load : ∀ t a, s.current t = some a → ¬ a.IsStore → a ∈ s.performed ∧ a ∉ s.told

/-- Every step keeps that. -/
theorem Traced.step (h : Traced s) (hstep : Step src s x s') : Traced s' := by
  obtain ⟨hlt, hunique, hunder, hstore, hload⟩ := h
  have hown : ∀ t a, s.current t = some a → a.id.tid = t := fun _ _ ha => (current_own ha).1
  -- A new access gets the count of its thread, which no access so far has.
  have hfresh : ∀ a : Access T P, a.id.num = s.count a.id.tid → ∀ b, b ∈ s.told ∨ b ∈ s.performed →
      b.id ≠ a.id := by
    intro a ha b hb heq
    have := hlt b hb
    rw [heq, ha] at this
    exact lt_irrefl _ this
  cases hstep.effectStep with
  | @begins a hnum hnone hcount hcurrent hcase =>
    have hnew := hfresh a hnum
    constructor <;> grind [State.effects, TwoStep.State.UnderWay, count_counted]
  | @ends a ha hcount hcurrent hcase =>
    -- The access that ends was told of or performed, so its identity is its own.
    have hbegun : a ∈ s.told ∨ a ∈ s.performed := by
      by_cases hs : a.IsStore
      · exact .inl (hstore _ a ha hs).1
      · exact .inr (hload _ a ha hs).1
    constructor <;> grind [State.effects, TwoStep.State.UnderWay]
  | other hcount hcurrent htold hperformed =>
    constructor <;> grind [State.effects, TwoStep.State.UnderWay]

/-- Accesses that are not made at the same time are not under way together: the guards under which
they are made would be held together. -/
theorem Traced.alone (h : Traced s)
    (hsep : Sections.Separated Guard.Excludes Entry.held s.sectionState) :
    s.effects.Alone Access.Apart := by
  rintro a b ⟨hne, hcase⟩ ha hb
  have ha' := h.under_way a ha
  have hb' := h.under_way b hb
  have htid : a.id.tid = b.id.tid := by
    rcases hcase with htid | ⟨g, hg, k, hk, hex⟩
    · exact htid
    · rw [(current_own ha').2, mem_guardsOf] at hg
      rw [(current_own hb').2, mem_guardsOf] at hk
      have heq : g = k := hsep.exclusive hex hex.symm hg.1 hk.1
      rw [← hg.2, ← hk.2, heq]
  rw [htid, hb'] at ha'
  exact hne (Option.some.inj ha').symm

/-- A step takes one of the two steps of an access, or changes none. -/
theorem Step.refine_effects (h : Traced s) (hstep : Step src s x s')
    (halone : s'.effects.Alone Access.Apart) :
    ∃ bs, Run (TwoStep.AloneStep Access.IsStore Access.Apart) s.effects bs s'.effects := by
  unfold State.effects at halone ⊢
  cases hstep.effectStep with
  | @begins a hnum _ _ _ hcase =>
    rcases hcase with ⟨hstore, htold, hperformed⟩ | ⟨hload, htold, hperformed⟩ <;>
      rw [htold, hperformed] at halone ⊢
    · -- The record of a store is its first step, and the effect of a load.
      refine ⟨_, .single ⟨.note (fun hm => ?_) fun he => absurd hstore he, halone⟩⟩
      exact absurd (h.lt a (.inl hm)) (by omega)
    · refine ⟨_, .single ⟨.perform (fun hm => ?_) fun he => absurd he hload, halone⟩⟩
      exact absurd (h.lt a (.inr hm)) (by omega)
  | @ends a ha _ _ hcase =>
    rcases hcase with ⟨hstore, htold, hperformed⟩ | ⟨hload, htold, hperformed⟩ <;>
      rw [htold, hperformed] at halone ⊢
    · obtain ⟨hmem, hnot⟩ := h.store _ a ha hstore
      exact ⟨_, .single ⟨.perform hnot fun _ => hmem, halone⟩⟩
    · obtain ⟨hmem, hnot⟩ := h.load _ a ha hload
      exact ⟨_, .single ⟨.note hnot fun _ => hmem, halone⟩⟩
  | other _ _ htold hperformed =>
    rw [htold, hperformed]
    exact ⟨[], .nil _⟩

/-- What holds in every state of a run. -/
structure Kept (s : State T P) : Prop where
  traced : Traced s
  sectioned : Sectioned s
  separated : Sections.Separated Guard.Excludes Entry.held s.sectionState

/-- It holds at the start. -/
theorem kept_init (memory : P → Cell P) : Kept (init memory : State T P) where
  traced := by
    constructor <;> simp [init, State.told, State.effects, TwoStep.State.UnderWay, State.current,
      Pending.current]
  sectioned := sectioned_init memory
  separated := Sections.separated_run (.nil Sections.init)

/-- Every step keeps that. -/
theorem Kept.step (h : Kept s) (hstep : Step src s x s') : Kept s' where
  traced := h.traced.step hstep
  sectioned := h.sectioned.step hstep
  separated := by
    obtain ⟨bs, hbs⟩ := hstep.refine_sections h.sectioned
    exact hbs.invariant (fun _ _ _ hs hstep => hs.step hstep) h.separated

/-- The accesses of a run are two-step operations of which those that are apart are not under way
together. -/
theorem run_effects {memory : P → Cell P} (hrun : Run (Step src) (init memory) as s) :
    Kept s ∧ ∃ bs, Run (TwoStep.AloneStep Access.IsStore Access.Apart) TwoStep.init bs
      s.effects := by
  have hstep : ∀ (s : State T P) (r : TwoStep.State (Access T P)) (x : Action T P)
      (s' : State T P), Kept s ∧ r = s.effects → Step src s x s' →
      ∃ bs r', Run (TwoStep.AloneStep Access.IsStore Access.Apart) r bs r' ∧
        Kept s' ∧ r' = s'.effects := by
    rintro s _ x s' ⟨hs, rfl⟩ hstep
    have hs' := hs.step hstep
    obtain ⟨bs, hbs⟩ := hstep.refine_effects hs.traced (hs'.traced.alone hs'.separated)
    exact ⟨bs, _, hbs, hs', rfl⟩
  obtain ⟨bs, _, hbs, hs, rfl⟩ := hrun.refine hstep ⟨kept_init memory, rfl⟩
  exact ⟨hs, bs, hbs⟩

omit [DecidableEq T] [DecidableEq P] in
/-- The accesses that were recorded are those that the log tells of. -/
theorem State.recorded_eq (s : State T P) : s.recorded = s.told.map Access.id := by
  simp only [State.recorded, State.told, List.map_filterMap]
  congr 1
  funext e
  cases hacc : e.access <;> simp [Entry.effect, hacc]

/-- Guarded accesses are recorded in the order in which they take effect. In every state of every
run: when an access took effect before another one, which is recorded, and the two are of one thread
or were made under guards that exclude each other, then the first one is recorded, too, and before
the other one. This holds of two stores as well. -/
theorem guarded_order {memory : P → Cell P} (hrun : Run (Step src) (init memory) as s)
    {a b : Access T P} (hab : Before s.performed a b)
    (hapart : a.id.tid = b.id.tid ∨ ∃ g ∈ a.held, ∃ h ∈ b.held, g.Excludes h)
    (hb : b.id ∈ s.recorded) : Before s.recorded a.id b.id := by
  obtain ⟨hs, bs, hbs⟩ := run_effects hrun
  have hordered := TwoStep.ordered_run hbs
  have hne : a ≠ b := by
    rintro rfl
    exact hab.asymm hordered.done_nodup hab
  rw [State.recorded_eq] at hb ⊢
  obtain ⟨c, hc, hid⟩ := List.mem_map.mp hb
  -- The access with the identity of `b` in the log is `b`.
  have hcb : c = b := hs.traced.unique c b (.inl hc) (.inr hab.right_mem) hid
  exact (hordered.order a b hab ⟨hne, hapart⟩ (hcb ▸ hc)).map Access.id

/-- The guards of two threads, one after the other, of the mutex `7`. -/
def mutexGuard (t : Bool) : Guard Bool ℕ := ⟨if t then 0 else 1, t, .mutex, 7, none⟩

/-- Two threads store to the address `5` under the mutex `7`. -/
theorem run_mutexStores : ∃ (as : List (Action Bool ℕ)) (s : State Bool ℕ),
    Run (Step .helloWorldCpp) (init fun _ => .data) as s ∧ (∀ t, s.pending t = .idle) ∧
    s.performed = [⟨⟨true, 0, .store⟩, 5, [mutexGuard true]⟩,
      ⟨⟨false, 0, .store⟩, 5, [mutexGuard false]⟩] ∧
    s.log = [⟨true, .probe 1 [] .store 5, .access 0, [mutexGuard true]⟩,
      ⟨false, .probe 1 [] .store 5, .access 0, [mutexGuard false]⟩] := by
  let loc : Location := ⟨1, []⟩
  exact ⟨[.lockBare true .mutex 7, .lockBare false .mutex 7, .acquire true .mutex 1,
      .storeProbe true loc 5, .store true .data, .unlockBare (mutexGuard true),
      .release (mutexGuard true), .acquire false .mutex 2, .storeProbe false loc 5,
      .store false .data, .unlockBare (mutexGuard false), .release (mutexGuard false)], _,
    .cons (.lockBare rfl) (.cons (.lockBare rfl) (.cons (.acquire rfl (by decide))
      (.cons (.storeProbe rfl) (.cons (.store rfl) (.cons (.unlockBare rfl (by decide))
      (.cons (.release rfl) (.cons (.acquire rfl (by decide)) (.cons (.storeProbe rfl)
      (.cons (.store rfl) (.cons (.unlockBare rfl (by decide))
      (.single (.release rfl)))))))))))), fun t => by cases t <;> rfl, rfl, rfl⟩

/-- The two stores are recorded in their order. -/
theorem guarded_order_mutex : ∃ s : State Bool ℕ,
    (∃ as, Run (Step .helloWorldCpp) (init fun _ => .data) as s) ∧
    Before s.recorded ⟨true, 0, .store⟩ ⟨false, 0, .store⟩ := by
  obtain ⟨as, s, hrun, -, hperformed, hlog⟩ := run_mutexStores
  have hapart : ∃ g ∈ [mutexGuard true], ∃ h ∈ [mutexGuard false], g.Excludes h :=
    ⟨_, List.mem_singleton.mpr rfl, _, List.mem_singleton.mpr rfl, rfl, rfl⟩
  exact ⟨s, ⟨as, hrun⟩, guarded_order hrun (a := ⟨⟨true, 0, .store⟩, 5, [mutexGuard true]⟩)
    (b := ⟨⟨false, 0, .store⟩, 5, [mutexGuard false]⟩) (by rw [hperformed]; decide) (.inr hapart)
    (by rw [State.recorded, hlog]; decide)⟩

/-- An address is guarded: of any two accesses to it that took effect, by different threads, the
guards exclude each other. -/
def State.GuardedAt (s : State T P) (y : P) : Prop :=
  ∀ a ∈ s.performed, ∀ b ∈ s.performed, a.addr = y → b.addr = y →
    a.id.tid = b.id.tid ∨ ∃ g ∈ a.held, ∃ h ∈ b.held, g.Excludes h

omit [DecidableEq P] in
/-- When all threads are between operations, what was recorded took effect, and the other way
round. -/
theorem Traced.over (h : Traced s) (hidle : ∀ t, s.pending t = .idle) (a : Access T P) :
    a ∈ s.told ↔ a ∈ s.performed := by
  have hnone : ¬ s.effects.UnderWay a := fun ha => by
    have hcurrent := h.under_way a ha
    rw [State.current, hidle] at hcurrent
    cases hcurrent
  simp only [TwoStep.State.UnderWay, State.effects] at hnone
  tauto

/-- When all threads are between operations, what the log tells of the accesses to a guarded address
is what they were, in the order in which they took effect. -/
theorem guarded_log {memory : P → Cell P} (hrun : Run (Step src) (init memory) as s)
    (hidle : ∀ t, s.pending t = .idle) {y : P} (hy : s.GuardedAt y) :
    s.told.filter (fun a => decide (a.addr = y)) =
      s.performed.filter fun a => decide (a.addr = y) := by
  obtain ⟨hs, bs, hbs⟩ := run_effects hrun
  have hordered := TwoStep.ordered_run hbs
  refine TwoStep.noted_eq_done hbs (hs.traced.over hidle) fun a b hab ha hb => ⟨?_, ?_⟩
  · rintro rfl
    exact hab.asymm hordered.done_nodup hab
  · exact hy a hab.left_mem b hab.right_mem (by simpa using ha) (by simpa using hb)

end Threads

end AtomicityViolation
