import Mathlib.Data.List.Basic
import Mathlib.Logic.Function.Basic
import AtomicityViolation.Library.Run

/-!
# Threads that write to a stream under a lock

Any number of threads make calls, and each call takes a lock, writes its text to a common stream in
pieces, and releases the lock. Nothing but the lock keeps the pieces of different calls apart. The
invariant says that what was written, followed by what the owner of the lock has still to write, is
the texts of the calls in the order in which they took the lock (`Ordered`). So when all calls have
returned, the stream is these texts, whole and in that order, and the calls of each thread are in
its own order (`stream_eq`, `calls_eq`).
-/

namespace LockedStream

open Transition (Run)

variable {T C α : Type*} [DecidableEq T]

/-- A state: the owner of the lock, what each thread inside has still to write, the calls each has
still to make, and what was written. -/
structure State (T C α : Type*) where
  owner : Option T
  pending : T → Option (List α)
  todo : T → List C
  stream : List α

/-- A step of a thread. -/
inductive Action (T C α : Type*) where
  | lock (t : T) (c : C)
  | write (t : T) (piece : List α)
  | unlock (t : T)

/-- The steps. A call has `text t c` to write. Only taking the lock looks at its owner. -/
inductive Step (text : T → C → List α) : State T C α → Action T C α → State T C α → Prop
  | lock {s : State T C α} {t : T} {c : C} {cs : List C} : s.owner = none → s.pending t = none →
      s.todo t = c :: cs →
      Step text s (.lock t c) { s with
        owner := some t
        pending := Function.update s.pending t (some (text t c))
        todo := Function.update s.todo t cs }
  | write {s : State T C α} {t : T} {piece rest : List α} : s.pending t = some (piece ++ rest) →
      Step text s (.write t piece) { s with
        pending := Function.update s.pending t (some rest)
        stream := s.stream ++ piece }
  | unlock {s : State T C α} {t : T} : s.pending t = some [] →
      Step text s (.unlock t) { s with
        owner := none
        pending := Function.update s.pending t none }

/-- The start: the lock is free, and each thread has its calls before it. -/
def init (calls : T → List C) (stream : List α) : State T C α :=
  ⟨none, fun _ => none, calls, stream⟩

/-- All calls have returned. -/
def State.Returned (s : State T C α) : Prop := ∀ t, s.pending t = none ∧ s.todo t = []

/-- The calls in the order in which they took the lock. -/
def taken (as : List (Action T C α)) : List (T × C) :=
  as.filterMap fun a => match a with
    | .lock t c => some (t, c)
    | _ => none

variable {text : T → C → List α} {s s' : State T C α} {a : Action T C α} {as : List (Action T C α)}

omit [DecidableEq T] in
/-- The calls that took the lock, after one more step. -/
theorem taken_concat : taken (as ++ [a]) = taken as ++ taken [a] :=
  List.filterMap_append

/-- When the lock is free, a thread can make its next call. -/
theorem call_run {t : T} {c : C} {cs : List C} (howner : s.owner = none)
    (hpending : s.pending t = none) (htodo : s.todo t = c :: cs) :
    Run (Step text) s [.lock t c, .write t (text t c), .unlock t]
      ⟨none, s.pending, Function.update s.todo t cs, s.stream ++ text t c⟩ := by
  -- Inside, with the whole text still to write.
  let s₁ : State T C α := ⟨some t, Function.update s.pending t (some (text t c)),
    Function.update s.todo t cs, s.stream⟩
  have hlock : Step text s (.lock t c) s₁ := .lock howner hpending htodo
  have hinside : s₁.pending t = some (text t c ++ []) := by simp [s₁]
  -- The text written in one piece.
  let s₂ : State T C α := ⟨some t, Function.update s₁.pending t (some []), s₁.todo,
    s.stream ++ text t c⟩
  have hwrite : Step text s₁ (.write t (text t c)) s₂ := .write hinside
  have hwritten : s₂.pending t = some [] := by simp [s₂]
  have hunlock : Step text s₂ (.unlock t) _ := .unlock hwritten
  -- Outside again, as before the call.
  have hback : Function.update (Function.update (Function.update s.pending t (some (text t c))) t
      (some [])) t none = s.pending := by
    rw [Function.update_idem, Function.update_idem, ← hpending, Function.update_eq_self]
  have hrun := Run.cons hlock (.cons hwrite (.single hunlock))
  simp only [s₁, s₂, hback] at hrun
  exact hrun

/-! ## Mutual exclusion -/

/-- A thread is inside exactly when it owns the lock. -/
def Exclusive (s : State T C α) : Prop := ∀ t, (s.pending t).isSome ↔ s.owner = some t

/-- Every step keeps that. -/
theorem Exclusive.step (h : Exclusive s) (hstep : Step text s a s') : Exclusive s' := by
  intro u
  cases hstep with
  | @lock t c cs howner hpending htodo =>
    by_cases hu : u = t
    · simp [hu]
    · -- Another thread is outside, since the lock was free.
      have hout := (h u).not.mpr (by simp [howner])
      simpa [hu, Ne.symm hu] using hout
  | @write t piece rest hpending =>
    by_cases hu : u = t
    · have howner := (h t).mp (by simp [hpending])
      simp [hu, howner]
    · simpa [hu] using h u
  | @unlock t hpending =>
    have howner := (h t).mp (by simp [hpending])
    by_cases hu : u = t
    · simp [hu]
    · -- Another thread is outside, since `t` had the lock.
      have hout := (h u).not.mpr (by simpa [howner] using Ne.symm hu)
      simpa [hu] using hout

/-! ## The order of the texts -/

/-- What the owner of the lock has still to write. -/
def State.rest (s : State T C α) : List α :=
  match s.owner with
  | none => []
  | some t => (s.pending t).getD []

/-- What was written since `before`, with what the owner has still to write, is the texts of the
calls in the order in which they took the lock. -/
structure Ordered (text : T → C → List α) (before : List α) (as : List (Action T C α))
    (s : State T C α) : Prop where
  /-- Only the owner of the lock is inside. -/
  exclusive : Exclusive s
  /-- The stream and the rest of the line. -/
  stream : s.stream ++ s.rest = before ++ (taken as).flatMap fun p => text p.1 p.2

/-- Every step keeps the order. -/
theorem Ordered.step {before : List α} (h : Ordered text before as s) (hstep : Step text s a s') :
    Ordered text before (as ++ [a]) s' := by
  have hstream := h.stream
  refine ⟨h.exclusive.step hstep, ?_⟩
  rw [taken_concat, List.flatMap_append, ← List.append_assoc, ← hstream]
  cases hstep with
  | @lock t c cs howner hpending htodo =>
    -- The text of the call is what there is now to write.
    simp [State.rest, howner, taken]
  | @write t piece rest hpending =>
    have howner := (h.exclusive t).mp (by simp [hpending])
    -- A piece goes over from the rest to the stream.
    simp [State.rest, howner, hpending, taken]
  | @unlock t hpending =>
    have howner := (h.exclusive t).mp (by simp [hpending])
    simp [State.rest, howner, hpending, taken]

/-- In a run from the start, what was written is in order. -/
theorem ordered_run {calls : T → List C} {before : List α}
    (h : Run (Step text) (init calls before) as s) : Ordered text before as s := by
  have hinit : Ordered text before [] (init calls before) :=
    ⟨fun t => by simp [init], by simp [init, State.rest, taken]⟩
  exact h.invariant_trace (fun _ _ _ _ hs hstep => hs.step hstep) hinit

/-- When all calls have returned, the texts of the calls were written whole, in the order in which
they took the lock. -/
theorem stream_eq {calls : T → List C} {before : List α}
    (h : Run (Step text) (init calls before) as s) (hret : s.Returned) :
    s.stream = before ++ (taken as).flatMap fun p => text p.1 p.2 := by
  have hord := ordered_run h
  -- An owner would be inside, and nobody is.
  have hnone : s.owner = none := by
    cases howner : s.owner with
    | none => rfl
    | some t =>
      have hin := (hord.exclusive t).mpr howner
      simp [(hret t).1] at hin
  simpa [State.rest, hnone] using hord.stream

/-! ## The order of each thread's calls -/

/-- The calls of thread `t`. -/
def callsOf (t : T) (ps : List (T × C)) : List C :=
  (ps.filter fun p => decide (p.1 = t)).map Prod.snd

/-- The calls a thread has made and those before it are its calls. -/
def Kept (calls : T → List C) (as : List (Action T C α)) (s : State T C α) : Prop :=
  ∀ t, callsOf t (taken as) ++ s.todo t = calls t

/-- Every step keeps that. -/
theorem Kept.step {calls : T → List C} (h : Kept calls as s) (hstep : Step text s a s') :
    Kept calls (as ++ [a]) s' := by
  intro u
  rw [← h u, taken_concat, callsOf, callsOf, List.filter_append, List.map_append, List.append_assoc]
  congr 1
  cases hstep with
  | @lock t c cs howner hpending htodo =>
    -- Taking the lock moves the next call of `t` over; the other steps move none.
    by_cases hu : t = u
    · subst hu
      simp [taken, htodo]
    · simp [taken, hu, Ne.symm hu]
  | write | unlock => simp [taken]

/-- When all calls have returned, the calls of each thread took the lock in its own order. -/
theorem calls_eq {calls : T → List C} {before : List α}
    (h : Run (Step text) (init calls before) as s) (hret : s.Returned) (t : T) :
    callsOf t (taken as) = calls t := by
  have hinit : Kept calls ([] : List (Action T C α)) (init calls before) := fun t => rfl
  have hkept := h.invariant_trace (fun _ _ _ _ hs hstep => Kept.step hs hstep) hinit t
  rwa [List.nil_append, (hret t).2, List.append_nil] at hkept

end LockedStream
