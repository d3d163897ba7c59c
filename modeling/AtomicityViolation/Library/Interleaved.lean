import Mathlib.Logic.Function.Basic
import AtomicityViolation.Library.CallStack

/-!
# Threads that share a memory

A thread is a stack of activations. All threads see one memory, which is a part of the state of an
activation (`Shared`): a thread takes its steps in the memory that the last step of any thread left
(`Procedures.Interleaved`). Activations of two systems that simulate each other make threads that
do, under every interleaving (`Simulated.interleaved`), if running activations stay related when
another thread leaves a memory (`Steady`). Where they do so for some memories only, this is said of
the runs in which no step disturbs another thread (`Undisturbed`).
-/

namespace Transition

variable {ι S S' A A' C R O M : Type*}

/-- A part of a state, which can be read and replaced. -/
structure Shared (S M : Type*) where
  /-- The part. -/
  get : S → M
  /-- The state with another part. -/
  put : M → S → S
  get_put : ∀ mem s, get (put mem s) = mem
  put_get : ∀ s, put (get s) s = s
  put_put : ∀ mem mem' s, put mem (put mem' s) = put mem s

/-- A stack whose running activation sees the memory. -/
def Shared.top (sh : Shared S M) (mem : M) : List S → List S
  | [] => []
  | s :: ss => sh.put mem s :: ss

/-- The running activation has the memory that it left. -/
theorem Shared.top_get (sh : Shared S M) (s : S) (ss : List S) :
    sh.top (sh.get s) (s :: ss) = s :: ss := by
  rw [top, sh.put_get]

/-- What is on top sees the memory. -/
theorem Shared.get_of_top (sh : Shared S M) {mem : M} {s : S} {ss ts : List S}
    (h : sh.top mem ts = s :: ss) : sh.get s = mem := by
  cases ts with
  | nil => cases h
  | cons t ts =>
    obtain ⟨rfl, -⟩ := List.cons.inj h
    exact sh.get_put mem t

section

variable [DecidableEq ι]

/-- The steps of threads that share a memory: a thread starts with a call, at any time, and takes
the steps of its stack. -/
inductive Procedures.Interleaved (P : Procedures S A C R) (sh : Shared S M) :
    (ι → List S) × M → ι × (A ⊕ C) → (ι → List S) × M → Prop
  | start {x : ι → List S} {i : ι} {c : C} {s : S} : x i = [] → P.starts c s →
      Interleaved P sh (x, sh.get s) (i, .inr c) (Function.update x i [s], sh.get s)
  | step {x : ι → List S} {mem : M} {i : ι} {a : A ⊕ C} {s : S} {ss : List S} :
      P.Step (sh.top mem (x i)) a (s :: ss) →
      Interleaved P sh (x, mem) (i, a) (Function.update x i (s :: ss), sh.get s)

/-- The step leaves a memory that does not disturb the running activation of another thread, by what
`Calm` says of that. -/
def Undisturbed (sh : Shared S M) (Calm : S → M → Prop) (X : (ι → List S) × M) (i : ι) (mem : M) :
    Prop :=
  ∀ j s ss, j ≠ i → X.1 j = s :: ss → Calm (sh.put X.2 s) mem

/-- The steps that disturb no other thread. -/
def Procedures.Calmly (P : Procedures S A C R) (sh : Shared S M) (Calm : S → M → Prop)
    (X : (ι → List S) × M) (a : ι × (A ⊕ C)) (Y : (ι → List S) × M) : Prop :=
  P.Interleaved sh X a Y ∧ Undisturbed sh Calm X a.1 Y.2

/-- What a step of a thread shows. -/
def threadView (view : A → Option O) : ι × (A ⊕ C) → Option (ι × (O ⊕ C)) :=
  taggedView fun _ => stackView view

omit [DecidableEq ι] in
/-- Calls are shown. -/
@[simp]
theorem threadView_call (view : A → Option O) (t : ι) (c : C) :
    threadView view (t, .inr c) = some (t, .inr c) := rfl

omit [DecidableEq ι] in
/-- Steps are shown as they are in their threads. -/
theorem threadView_step {view : A → Option O} {a : A} {o : O} (h : view a = some o) (t : ι) :
    threadView (C := C) view (t, .inl a) = some (t, .inl o) := by
  simp [threadView, taggedView, stackView, h]

/-- Related running activations see the same memory, and stay related when another thread leaves one
that does not disturb them. -/
structure Steady (sh : Shared S M) (sh' : Shared S' M) (Active : S → S' → Prop)
    (Calm : S → M → Prop) : Prop where
  get : ∀ {s t}, Active s t → sh'.get t = sh.get s
  put : ∀ {s t mem}, Active s t → Calm s mem → Active (sh.put mem s) (sh'.put mem t)

/-- The threads of two systems are related: they see the same memory, the same ones have started,
and their stacks are related. -/
def Pools (sh : Shared S M) (sh' : Shared S' M) (Active Waiting : S → S' → Prop)
    (X : (ι → List S) × M) (Y : (ι → List S') × M) : Prop :=
  Y.2 = X.2 ∧ ∀ i, X.1 i = [] ∧ Y.1 i = [] ∨
    Stacks Active Waiting (sh.top X.2 (X.1 i)) (sh'.top Y.2 (Y.1 i))

/-- Of stacks that are related when they see a memory, the running activations are so, and those
that wait. -/
theorem Stacks.of_top {sh : Shared S M} {sh' : Shared S' M} {Active Waiting : S → S' → Prop}
    {mem mem' : M} {ss : List S} {ts : List S'}
    (h : Stacks Active Waiting (sh.top mem ss) (sh'.top mem' ts)) :
    ∃ s us t vs, ss = s :: us ∧ ts = t :: vs ∧ Active (sh.put mem s) (sh'.put mem' t) ∧
      List.Forall₂ Waiting us vs := by
  cases ss with
  | nil => cases h
  | cons s us =>
    cases ts with
    | nil => cases h
    | cons t vs =>
      obtain ⟨hactive, hwaiting⟩ := h
      exact ⟨s, us, t, vs, rfl, rfl, hactive, hwaiting⟩

/-- Every run of threads that disturb no other is answered by a run of threads that shows the same,
of each thread and in the same order. Afterwards the memory is the same, and the activations on the
stacks of each thread are related. -/
def Procedures.AnswersThreads (ι : Type*) [DecidableEq ι] (P : Procedures S A C R)
    (P' : Procedures S' A' C R) (sh : Shared S M) (sh' : Shared S' M) (Calm : S → M → Prop)
    (view : A → Option O) (view' : A' → Option O) (Related : S → S' → Prop) : Prop :=
  ∀ (mem : M) (as : List (ι × (A ⊕ C))) (X : (ι → List S) × M),
    Run (P.Calmly sh Calm) (fun _ => [], mem) as X →
    ∃ (bs : List (ι × (A' ⊕ C))) (Y : (ι → List S') × M),
      Run (P'.Interleaved sh') (fun _ => [], mem) bs Y ∧
      bs.filterMap (threadView view') = as.filterMap (threadView view) ∧ Y.2 = X.2 ∧
      ∀ i, List.Forall₂ Related (sh.top X.2 (X.1 i)) (sh'.top Y.2 (Y.1 i))

namespace Procedures

variable {P : Procedures S A C R} {P' : Procedures S' A' C R} {sh : Shared S M}
  {sh' : Shared S' M} {Calm : S → M → Prop} {view : A → Option O} {view' : A' → Option O}
  {Active Waiting : S → S' → Prop}

/-- A step leaves an activation that is running. -/
theorem Step.exists_cons {ss ss' : List S} {a : A ⊕ C} (h : P.Step ss a ss') :
    ∃ s rest, ss' = s :: rest := by
  cases h <;> exact ⟨_, _, rfl⟩

/-- What holds of activations when they start and is kept by their steps holds of a stack, and so
does what these steps then show. -/
theorem Step.forall_mem {I : S → Prop} {Q : A → Prop} (hstart : ∀ c s, P.starts c s → I s)
    (hstep : ∀ s a s', I s → P.step s a s' → Q a ∧ I s')
    (hresume : ∀ s r a s', I s → P.resumes s r a s' → Q a ∧ I s') {ss ss' : List S} {a : A ⊕ C}
    (hss : ∀ s ∈ ss, I s) (h : P.Step ss a ss') :
    (∀ b, a = .inl b → Q b) ∧ ∀ s ∈ ss', I s := by
  cases h with
  | step h =>
    obtain ⟨hs, hrest⟩ := List.forall_mem_cons.mp hss
    obtain ⟨hQ, hs'⟩ := hstep _ _ _ hs h
    exact ⟨fun b hb => Sum.inl.inj hb ▸ hQ, List.forall_mem_cons.mpr ⟨hs', hrest⟩⟩
  | call _ h =>
    exact ⟨fun b hb => (by cases hb), List.forall_mem_cons.mpr ⟨hstart _ _ h, hss⟩⟩
  | resume _ h =>
    obtain ⟨-, hss⟩ := List.forall_mem_cons.mp hss
    obtain ⟨ht, hrest⟩ := List.forall_mem_cons.mp hss
    obtain ⟨hQ, ht'⟩ := hresume _ _ _ _ ht h
    exact ⟨fun b hb => Sum.inl.inj hb ▸ hQ, List.forall_mem_cons.mpr ⟨ht', hrest⟩⟩

/-- What holds of activations when they start and is kept by their steps and by a new memory is kept
by the steps of threads, and so does hold what these then show. -/
theorem Interleaved.forall_mem {I : S → Prop} {Q : A → Prop} (hstart : ∀ c s, P.starts c s → I s)
    (hstep : ∀ s a s', I s → P.step s a s' → Q a ∧ I s')
    (hresume : ∀ s r a s', I s → P.resumes s r a s' → Q a ∧ I s')
    (hput : ∀ mem s, I s → I (sh.put mem s)) {X Y : (ι → List S) × M} {a : ι × (A ⊕ C)}
    (hX : ∀ j, ∀ s ∈ X.1 j, I s) (h : P.Interleaved sh X a Y) :
    (∀ b, a.2 = .inl b → Q b) ∧ ∀ j, ∀ s ∈ Y.1 j, I s := by
  cases h with
  | @start x i c s _ hs =>
    refine ⟨fun b hb => (by cases hb), fun j => ?_⟩
    by_cases hj : j = i
    · subst hj
      simpa only [Function.update_self, List.forall_mem_singleton] using hstart c s hs
    · simpa only [Function.update_of_ne hj] using hX j
  | @step x mem i b s ss h =>
    have htop : ∀ t ∈ sh.top mem (x i), I t := by
      have hi : ∀ t ∈ x i, I t := hX i
      cases hx : x i with
      | nil => simp [Shared.top]
      | cons t ts =>
        rw [hx, List.forall_mem_cons] at hi
        exact List.forall_mem_cons.mpr ⟨hput mem t hi.1, hi.2⟩
    obtain ⟨hQ, hnew⟩ := h.forall_mem hstart hstep hresume htop
    refine ⟨hQ, fun j => ?_⟩
    by_cases hj : j = i
    · subst hj
      simpa only [Function.update_self] using hnew
    · simpa only [Function.update_of_ne hj] using hX j

/-- What holds of activations when they start and is kept by their steps and by a new memory holds
in all threads, and so does what the steps then show. -/
theorem run_forall_mem {I : S → Prop} {Q : A → Prop} (hstart : ∀ c s, P.starts c s → I s)
    (hstep : ∀ s a s', I s → P.step s a s' → Q a ∧ I s')
    (hresume : ∀ s r a s', I s → P.resumes s r a s' → Q a ∧ I s')
    (hput : ∀ mem s, I s → I (sh.put mem s)) {mem : M} {as : List (ι × (A ⊕ C))}
    {X : (ι → List S) × M} (h : Run (P.Interleaved sh) (fun _ => [], mem) as X) :
    ∀ i a, (i, .inl a) ∈ as → Q a := by
  have hnil : (∀ j : ι, ∀ s ∈ ([] : List S), I s) ∧
      ∀ i a, (i, Sum.inl a) ∈ ([] : List (ι × (A ⊕ C))) → Q a := by simp
  have hall := Run.invariant_trace (I := fun as (X : (ι → List S) × M) =>
    (∀ j, ∀ s ∈ X.1 j, I s) ∧ ∀ i a, (i, .inl a) ∈ as → Q a) (fun as X b Y hX hXY => ?_) h hnil
  · exact hall.2
  obtain ⟨hstacks, hlabels⟩ := hX
  obtain ⟨hQ, hstacks'⟩ := hXY.forall_mem hstart hstep hresume hput hstacks
  refine ⟨hstacks', fun k a ha => ?_⟩
  rcases List.mem_append.mp ha with ha | ha
  · exact hlabels k a ha
  · exact hQ a (congrArg Prod.snd (List.mem_singleton.mp ha).symm)

/-- The steps of a stack are steps of its thread, and no other thread moves. -/
theorem run_thread {i : ι} {as : List (A ⊕ C)} {us : List S} {x : ι → List S} {mem : M}
    (h : Run P.Step (sh.top mem (x i)) as us) :
    ∃ y mem', Run (P.Interleaved sh) (x, mem) (as.map (i, ·)) (y, mem') ∧
      sh.top mem' (y i) = us ∧ ∀ j, j ≠ i → y j = x j := by
  generalize hss : sh.top mem (x i) = ss at h
  induction h generalizing x mem with
  | nil => exact ⟨x, mem, .nil _, hss, fun _ _ => rfl⟩
  | @cons ss ss₁ us a as hstep _ ih =>
    subst hss
    obtain ⟨s, rest, rfl⟩ := hstep.exists_cons
    obtain ⟨y, mem', hrun, htop, hother⟩ := @ih (Function.update x i (s :: rest))
      (sh.get s) (by rw [Function.update_self, sh.top_get])
    refine ⟨y, mem', .cons (.step hstep) hrun, htop, fun j hj => ?_⟩
    rw [hother j hj, Function.update_of_ne hj]

/-- Threads whose activations simulate each other do so under every interleaving. -/
theorem Simulated.interleaved (h : P.Simulated P' view view' Active Waiting)
    (hsteady : Steady sh sh' Active Calm) :
    Simulates (P.Calmly (ι := ι) sh Calm) (P'.Interleaved sh') (threadView view)
      (threadView view') (Pools sh sh' Active Waiting) := by
  rintro ⟨x, mem⟩ ⟨y, mem₀⟩ ⟨i, a⟩ X ⟨hmem, hpools⟩ ⟨hstep, hcalm⟩
  obtain rfl : mem₀ = mem := hmem
  replace hpools : ∀ i, x i = [] ∧ y i = [] ∨
      Stacks Active Waiting (sh.top mem₀ (x i)) (sh'.top mem₀ (y i)) := hpools
  cases hstep with
  | @start _ _ c s hx hs =>
    have hy : y i = [] := by
      rcases hpools i with ⟨-, hy⟩ | hstacks
      · exact hy
      · obtain ⟨_, _, _, _, hcons, -⟩ := hstacks.of_top
        rw [hx] at hcons
        cases hcons
    obtain ⟨t, ht, hactive⟩ := h.start hs
    have hget := hsteady.get hactive
    have hfirst : P'.Interleaved sh' (y, sh.get s) (i, .inr c)
        (Function.update y i [t], sh.get s) := hget ▸ .start hy ht
    refine ⟨[_], _, .single hfirst, rfl, rfl, fun j => ?_⟩
    by_cases hj : j = i
    · subst hj
      simp only [Function.update_self, sh.top_get]
      rw [← hget, sh'.top_get]
      exact .inr (.cons hactive .nil)
    · simpa only [Function.update_of_ne hj] using hpools j
  | @step _ _ _ _ s ss hstep =>
    have hstacks : Stacks Active Waiting (sh.top mem₀ (x i)) (sh'.top mem₀ (y i)) := by
      rcases hpools i with ⟨hx, -⟩ | hstacks
      · rw [hx] at hstep
        cases hstep
      · exact hstacks
    obtain ⟨bs, ts, hbs, hview, hstacks'⟩ := h.stack _ _ _ _ hstacks hstep
    obtain ⟨y', mem', hrun, htop, hother⟩ := run_thread hbs
    -- The answer leaves the memory that the step leaves.
    have hmem' : mem' = sh.get s := by
      cases hstacks' with
      | cons hactive _ => rw [← sh'.get_of_top htop, hsteady.get hactive]
    subst hmem'
    refine ⟨bs.map (i, ·), _, hrun, ?_, rfl, fun j => ?_⟩
    · calc (bs.map (i, ·)).filterMap (threadView view')
          = (bs.filterMap (stackView view')).map (i, ·) := by
            rw [List.filterMap_map, List.map_filterMap]; rfl
        _ = (threadView view (i, a)).toList := by
            rw [hview, threadView, taggedView, Option.toList_map]
    · by_cases hj : j = i
      · subst hj
        simp only [Function.update_self, sh.top_get, htop]
        exact .inr hstacks'
      · simp only [Function.update_of_ne hj, hother j hj]
        refine (hpools j).imp id fun hj' => ?_
        -- The others see the new memory, which does not disturb them.
        obtain ⟨u, us, v, vs, hxj, hyj, hactive, hwaiting⟩ := hj'.of_top
        have hnew := hsteady.put hactive (hcalm j u us hj hxj)
        rw [sh.put_put, sh'.put_put] at hnew
        rw [hxj, hyj]
        exact .cons hnew hwaiting

/-- The runs of the threads are answered. -/
theorem Simulated.answersThreads {Related : S → S' → Prop}
    (h : P.Simulated P' view view' Active Waiting) (hsteady : Steady sh sh' Active Calm)
    (hactive : ∀ s t, Active s t → Related s t) (hwaiting : ∀ s t, Waiting s t → Related s t) :
    P.AnswersThreads ι P' sh sh' Calm view view' Related := by
  intro mem as X hrun
  obtain ⟨bs, Y, hbs, hview, hmem, hpools⟩ := (h.interleaved hsteady).run
    (t := (fun _ => [], mem)) ⟨rfl, fun _ => .inl ⟨rfl, rfl⟩⟩ hrun
  refine ⟨bs, Y, hbs, hview, hmem, fun i => ?_⟩
  rcases hpools i with ⟨hX, hY⟩ | hstacks
  · simp only [hX, hY, Shared.top]
    exact .nil
  · exact hstacks.forall₂ hactive hwaiting

end Procedures

end

/-! ## Two threads -/

/-- The stacks of two threads. -/
def pair (ss ts : List S) : ℕ → List S
  | 0 => ss
  | 1 => ts
  | _ => []

/-- No thread has started. -/
theorem pair_nil : pair ([] : List S) [] = fun _ => [] := by
  funext i
  match i with
  | 0 | 1 | _ + 2 => rfl

/-- The first thread has another stack. -/
theorem update_pair_zero (ss ss' ts : List S) :
    Function.update (pair ss ts) 0 ss' = pair ss' ts := by
  funext i
  match i with
  | 0 | 1 | _ + 2 => rfl

/-- The second thread has another stack. -/
theorem update_pair_one (ss ts ts' : List S) :
    Function.update (pair ss ts) 1 ts' = pair ss ts' := by
  funext i
  match i with
  | 0 | 1 | _ + 2 => rfl

namespace Procedures.Interleaved

variable {P : Procedures S A C R} {sh : Shared S M} {ss ts us : List S} {s : S} {mem : M} {c : C}
  {a : A ⊕ C}

/-- The first of two threads starts. -/
theorem start_zero (h : P.starts c s) (hmem : sh.get s = mem) :
    P.Interleaved sh (pair [] ts, mem) (0, .inr c) (pair [s] ts, mem) := by
  subst hmem
  have hstart : P.Interleaved sh (pair [] ts, sh.get s) (0, .inr c) _ := .start rfl h
  rwa [update_pair_zero] at hstart

/-- The second of two threads starts. -/
theorem start_one (h : P.starts c s) (hmem : sh.get s = mem) :
    P.Interleaved sh (pair ss [], mem) (1, .inr c) (pair ss [s], mem) := by
  subst hmem
  have hstart : P.Interleaved sh (pair ss [], sh.get s) (1, .inr c) _ := .start rfl h
  rwa [update_pair_one] at hstart

/-- The first of two threads takes a step. -/
theorem step_zero (h : P.Step (sh.top mem ss) a (s :: us)) :
    P.Interleaved sh (pair ss ts, mem) (0, a) (pair (s :: us) ts, sh.get s) := by
  have hstep : P.Interleaved sh (pair ss ts, mem) (0, a) _ := .step h
  rwa [update_pair_zero] at hstep

/-- The second of two threads takes a step. -/
theorem step_one (h : P.Step (sh.top mem ts) a (s :: us)) :
    P.Interleaved sh (pair ss ts, mem) (1, a) (pair ss (s :: us), sh.get s) := by
  have hstep : P.Interleaved sh (pair ss ts, mem) (1, a) _ := .step h
  rwa [update_pair_one] at hstep

end Procedures.Interleaved

end Transition
