import AtomicityViolation.Concurrency.Machine
import AtomicityViolation.Pass.Steps

/-!
# The code that the threads run

The steps that one thread takes in a run, the others left out, are the layouts of its operations,
one after another, up to the operation that it is in (`steps_run`). So the threads of
`Concurrency/Machine.lean` run code of the shape that the walk leaves (`Source.steps_walk`).
-/

namespace AtomicityViolation

namespace Threads

open Transition (Run)
open Threads.State

variable {T P : Type*}

/-- The thread that takes a step. -/
def Action.thread : Action T P → T
  | .storeProbe t _ _ | .store t _ | .load t _ | .loadProbe t _ | .write t _ _ => t
  | .lockProbe t _ _ _ _ _ | .lockBare t _ _ | .acquire t _ _ => t
  | .move g _ | .unlockProbe _ _ g _ | .unlockBare g | .release g => g.tid

/-- The step of the code, if it is one. Moving a guard and beginning an operation that is not probed
are none. -/
def Action.codeStep : Action T P → Option CodeStep
  | .storeProbe _ _ _ => some (.probe Op.store.text)
  | .store _ _ | .write _ _ _ => some (.access .store)
  | .load _ _ => some (.access .load)
  | .loadProbe _ _ => some (.probe Op.load.text)
  | .lockProbe _ _ arm _ _ _ | .unlockProbe _ arm _ _ => some (.probe arm.op.text)
  | .acquire _ kind _ => some (.lock (.acquire kind))
  | .release g => some (.lock (.release g.kind))
  | .lockBare _ _ _ | .move _ _ | .unlockBare _ => none

/-- The steps that have been taken of the operation that a thread is in. -/
inductive Begun : Pending T P → List CodeStep → Prop
  | idle : Begun .idle []
  | store {n : ℕ} {x : P} : Begun (.store n x) [.probe Op.store.text]
  | load {n : ℕ} {x : P} : Begun (.load n x) [.access .load]
  | acquire {kind : GuardKind} {lock : P} {record : Option ℕ} {op : Op} :
      op.role = .acquire kind → Begun (.acquire kind lock record) [.probe op.text]
  | acquireBare {kind : GuardKind} {lock : P} {record : Option ℕ} :
      Begun (.acquire kind lock record) []
  | release {g : Guard T P} {op : Op} : op.role = .release g.kind →
      Begun (.release g) [.probe op.text]
  | releaseBare {g : Guard T P} : Begun (.release g) []

/-- A thread between operations has begun nothing. -/
theorem begun_idle {begun : List CodeStep} (h : Begun (.idle : Pending T P) begun) :
    begun = [] := by
  cases h
  rfl

variable [DecidableEq T] [DecidableEq P] {src : Source} {s s' : State T P} {x : Action T P}
  {as : List (Action T P)}

/-- The steps that a thread takes in a run. -/
def stepsOf (t : T) (as : List (Action T P)) : List CodeStep :=
  as.filterMap fun x => if x.thread = t then x.codeStep else none

/-- The other threads stay where they are. -/
theorem Step.pending_of_ne (hstep : Step src s x s') {u : T} (hu : u ≠ x.thread) :
    s'.pending u = s.pending u := by
  cases hstep with
  | write | move => rfl
  | _ => exact pending_goto_of_ne _ hu _

omit [DecidableEq P] in
/-- What a thread has begun when it goes to a new place. -/
theorem begun_goto {t : T} {p : Pending T P} {begun : List CodeStep} (h : Begun p begun) :
    Begun ((s.goto t p).pending t) begun := by
  rwa [pending_goto_self]

/-- The step of a thread ends an operation or goes on with one. -/
theorem Step.begun (hstep : Step src s x s') {begun : List CodeStep}
    (h : Begun (s.pending x.thread) begun) : ∃ (ops : List Operation) (begun' : List CodeStep),
      begun ++ x.codeStep.toList = ops.flatMap Operation.steps ++ begun' ∧
        Begun (s'.pending x.thread) begun' := by
  cases hstep with
  | @storeProbe t loc y ht =>
    obtain rfl := begun_idle (ht ▸ h)
    exact ⟨[], _, rfl, begun_goto .store⟩
  | @store t n y value ht =>
    simp only [Action.thread, ht] at h
    cases h
    exact ⟨[.access .store true], [], rfl, begun_goto .idle⟩
  | @load t y ht =>
    obtain rfl := begun_idle (ht ▸ h)
    exact ⟨[], _, rfl, begun_goto .load⟩
  | @loadProbe t n y loc ht =>
    simp only [Action.thread, ht] at h
    cases h
    exact ⟨[.access .load true], [], rfl, begun_goto .idle⟩
  | @write t y value ht =>
    obtain rfl := begun_idle (ht ▸ h)
    exact ⟨[.access .store false], [], rfl, by rw [Action.thread]; exact h⟩
  | @lockProbe t loc arm kind args lock addr ht harm hrole =>
    obtain rfl := begun_idle (ht ▸ h)
    exact ⟨[], _, rfl, begun_goto (.acquire hrole)⟩
  | @lockBare t kind lock ht =>
    obtain rfl := begun_idle (ht ▸ h)
    exact ⟨[], _, rfl, begun_goto .acquireBare⟩
  | @acquire t kind lock dst record ht hfree =>
    simp only [Action.thread, ht] at h
    -- The lock is taken behind the probe, or alone at a site that the walk did not come to.
    cases h with
    | @acquire _ _ _ op hrole =>
      exact ⟨[.lock op], [], by simp [Operation.steps, Action.codeStep, hrole],
        begun_goto .idle⟩
    | acquireBare => exact ⟨[.bareLock (.acquire kind)], [], rfl, begun_goto .idle⟩
  | @move g y dst ht hg hplace hmem =>
    obtain rfl := begun_idle (ht ▸ h)
    exact ⟨[], [], rfl, h⟩
  | @unlockProbe loc arm g y addr ht hg hplace harm hrole =>
    obtain rfl := begun_idle (ht ▸ h)
    exact ⟨[], _, rfl, begun_goto (.release hrole)⟩
  | @unlockBare g ht hg =>
    obtain rfl := begun_idle (ht ▸ h)
    exact ⟨[], _, rfl, begun_goto .releaseBare⟩
  | @release g ht =>
    simp only [Action.thread, ht] at h
    cases h with
    | @release _ op hrole =>
      exact ⟨[.lock op], [], by simp [Operation.steps, Action.codeStep, hrole],
        begun_goto .idle⟩
    | releaseBare => exact ⟨[.bareLock (.release g.kind)], [], rfl, begun_goto .idle⟩

/-- The steps that a thread has taken are the layouts of operations, with what it has begun. -/
def LaidOut (t : T) (as : List (Action T P)) (s : State T P) : Prop :=
  ∃ (ops : List Operation) (begun : List CodeStep),
    stepsOf t as = ops.flatMap Operation.steps ++ begun ∧ Begun (s.pending t) begun

/-- Every step keeps that. -/
theorem LaidOut.step {t : T} (h : LaidOut t as s) (hstep : Step src s x s') :
    LaidOut t (as ++ [x]) s' := by
  obtain ⟨ops, begun, hsteps, hbegun⟩ := h
  have hconcat : stepsOf t (as ++ [x]) =
      stepsOf t as ++ (if x.thread = t then x.codeStep else none).toList := by
    rw [stepsOf, List.filterMap_append]
    by_cases hx : x.thread = t
    · cases hcode : x.codeStep <;> simp [stepsOf, hx, hcode]
    · simp [stepsOf, hx]
  rw [LaidOut, hconcat, hsteps]
  by_cases hx : x.thread = t
  · subst hx
    -- The thread goes on from where it stands.
    obtain ⟨ops', begun', heq, hbegun'⟩ := hstep.begun hbegun
    refine ⟨ops ++ ops', begun', ?_, hbegun'⟩
    rw [if_pos rfl, List.append_assoc, heq, List.flatMap_append, List.append_assoc]
  · -- Another thread moves, and this one stays where it is.
    refine ⟨ops, begun, by simp [hx], ?_⟩
    rwa [hstep.pending_of_ne (Ne.symm hx)]

/-- The threads run code that is laid out. In every run, the steps of each thread are the layouts
of its operations, one after another, and the first steps of the operation that it is in. -/
theorem steps_run {memory : P → Cell P} (h : Run (Step src) (init memory) as s) (t : T) :
    ∃ (ops : List Operation) (begun : List CodeStep),
      stepsOf t as = ops.flatMap Operation.steps ++ begun ∧ Begun (s.pending t) begun := by
  have hinit : LaidOut t ([] : List (Action T P)) (init memory) := ⟨[], [], rfl, .idle⟩
  exact h.invariant_trace (fun _ _ _ _ hs hstep => LaidOut.step hs hstep) hinit

end Threads

end AtomicityViolation
