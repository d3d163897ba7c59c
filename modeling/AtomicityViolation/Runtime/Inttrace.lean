import AtomicityViolation.Library.LockedStream
import AtomicityViolation.Runtime.Record

/-!
# The probes of `lib/inttrace.c`

`_probe_` and `_probe_lock_` lock `fp_lock`, print a line with `fprintf`, and unlock it. Any number
of threads call them, and other threads may run between any two pieces of a line. The lines are
whole and stand in the order in which the calls took the lock, so the log is that of the records in
this order (`log_of_probes`).
-/

namespace AtomicityViolation

open Transition (Run)
open LockedStream (Action Step init taken callsOf)

/-- A call of `_probe_` or of `_probe_lock_`, with its arguments. -/
inductive ProbeCall (P : Type*) where
  | probe (line : Line) (file : List Char) (op : Op) (addr : P)
  | probeLock (line : Line) (file : List Char) (op : Op) (addr : P)
  deriving DecidableEq

variable {T P : Type*} [DecidableEq T]

/-- The operation that a call records. -/
def ProbeCall.op : ProbeCall P → Op
  | .probe _ _ op _ => op
  | .probeLock _ _ op _ => op

/-- The name that a call records. -/
def ProbeCall.file : ProbeCall P → List Char
  | .probe _ file _ _ => file
  | .probeLock _ file _ _ => file

/-- The address that a call records. -/
def ProbeCall.addr : ProbeCall P → P
  | .probe _ _ _ addr => addr
  | .probeLock _ _ _ addr => addr

/-- The record of a call by a thread in which `pthread_self()` returns `self`. -/
def ProbeCall.record (self : P) : ProbeCall P → Record P
  | .probe line file op addr => ⟨self, line, file, addr, op⟩
  | .probeLock line file op addr => ⟨self, line, file, addr, op⟩

/-- The name in the record of a call. -/
@[simp] theorem ProbeCall.record_file (self : P) (c : ProbeCall P) :
    (c.record self).file = c.file := by cases c <;> rfl

/-- The address in the record of a call. -/
@[simp] theorem ProbeCall.record_addr (self : P) (c : ProbeCall P) :
    (c.record self).addr = c.addr := by cases c <;> rfl

/-- The thread in the record of a call. -/
@[simp] theorem ProbeCall.record_tid (self : P) (c : ProbeCall P) :
    (c.record self).tid = self := by cases c <;> rfl

/-- The text that `fprintf` writes in a call by thread `t`. The two functions print the same. -/
def printed (fmt : PointerFormat P) (self : T → P) (t : T) (c : ProbeCall P) : List Char :=
  fmt.line (c.record (self t))

/-- The records of calls, by the threads that made them. -/
def recordsOfCalls (self : T → P) (ps : List (T × ProbeCall P)) : List (Record P) :=
  ps.map fun p => p.2.record (self p.1)

/-- No record is lost, torn or reordered. For any threads and any calls of them, made while the
stream is open: when all calls have returned, the stream is the lines of the calls, one for each, in
the order in which they took `fp_lock`, and the calls of each thread took it in the thread's own
order. -/
theorem log_of_probes (fmt : PointerFormat P) (self : T → P) (calls : T → List (ProbeCall P))
    {as : List (Action T (ProbeCall P) Char)} {s : LockedStream.State T (ProbeCall P) Char}
    (h : Run (Step (printed fmt self)) (init calls []) as s) (hret : s.Returned) :
    s.stream = fmt.log (recordsOfCalls self (taken as)) ∧ ∀ t, callsOf t (taken as) = calls t := by
  refine ⟨?_, LockedStream.calls_eq h hret⟩
  calc s.stream
      = [] ++ (taken as).flatMap fun p => printed fmt self p.1 p.2 :=
        LockedStream.stream_eq h hret
    _ = (taken as).flatMap fun p => fmt.line (p.2.record (self p.1)) := List.nil_append _
    _ = fmt.log (recordsOfCalls self (taken as)) := by
        rw [PointerFormat.log, recordsOfCalls, List.flatMap_map]

/-- Two threads, each with one call. -/
def twoCalls (t : Bool) : List (ProbeCall ℕ) :=
  if t then [.probe 7 ['f'] .store 16] else [.probeLock 8 ['g'] .lock 32]

/-- A run of `twoCalls`. -/
theorem log_of_twoCalls : ∃ (as : List (Action Bool (ProbeCall ℕ) Char))
    (s : LockedStream.State Bool (ProbeCall ℕ) Char),
    Run (Step (printed glibcPointer fun t => if t then 1 else 2)) (init twoCalls []) as s ∧
    s.Returned ∧
    s.stream = glibcPointer.log (recordsOfCalls (fun t => if t then 1 else 2) (taken as)) ∧
    ∀ t, callsOf t (taken as) = twoCalls t := by
  let text : Bool → ProbeCall ℕ → List Char := printed glibcPointer fun t => if t then 1 else 2
  have hfirst : Run (Step text) (init twoCalls []) _ _ :=
    LockedStream.call_run (t := true) rfl rfl rfl
  have hboth := hfirst.append (LockedStream.call_run (t := false) rfl rfl rfl)
  obtain ⟨as, s, h, hret⟩ : ∃ as s, Run (Step text) (init twoCalls []) as s ∧ s.Returned :=
    ⟨_, _, hboth, fun t => by cases t <;> exact ⟨rfl, rfl⟩⟩
  exact ⟨as, s, h, hret, log_of_probes glibcPointer _ twoCalls h hret⟩

end AtomicityViolation
