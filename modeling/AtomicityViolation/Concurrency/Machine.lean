import AtomicityViolation.Pass.Layout
import AtomicityViolation.Runtime.Inttrace

/-!
# Threads that run instrumented code

Any number of threads run code that the pass has instrumented, on one memory. An access or a lock
operation that is probed is two steps, between which other threads may run: a store is the probe and
then the store, a load is the load and then the probe, and the acquisition and the release of a lock
are the probe and then the operation. A probe appends one record to the log, which is how it looks
from outside `fp_lock` (`log_of_probes`). Code that is not probed writes, acquires and releases as
well. That the walk lays out the code so is `Source.steps_walk`, and that the threads here run such
code is `Threads.steps_run`.

A state also tells what the log does not: which guards are held and where they stand in memory, the
sections that were begun, and the accesses in the order in which they took effect. Each record comes
with what it is about and with the guards that its thread held when it was written.
-/

namespace AtomicityViolation

/-! ## Guards -/

/-- The operand of the function that acquires a lock which is the lock's address. `Mutex::lock` and
`RwLock::write` return their result through operand 0. -/
def GuardKind.lockOperand : GuardKind → ℕ
  | .read => 0
  | .mutex | .write => 1

/-- Guards of one lock that are not held at the same time. -/
def GuardKind.excludes : GuardKind → GuardKind → Bool
  | .mutex, .mutex | .read, .write | .write, .read | .write, .write => true
  | _, _ => false

/-- A guard excludes those that exclude it. -/
theorem GuardKind.excludes_comm (k l : GuardKind) : k.excludes l = l.excludes k := by
  cases k <;> cases l <;> rfl

/-- What stands at a place in memory: an address, a struct whose field 0 is an address, or something
else. -/
inductive Cell (P : Type*) where
  | address (p : P)
  | struct (field0 : P)
  | data
  deriving DecidableEq

/-- The guard of a lock: a read guard is the lock's address, and the others have it in field 0. -/
def GuardKind.cell {P : Type*} : GuardKind → P → Cell P
  | .read, lock => .address lock
  | .mutex, lock | .write, lock => .struct lock

/-- What a route computes from the operands. It has no value where the operand is missing or what it
loads is not an address. -/
def Route.eval {P : Type*} (memory : P → Cell P) (args : List P) : Route → Option P
  | .argument i => args[i]?
  | .guardField => args[0]?.bind fun loc =>
      match memory loc with
      | .struct p => some p
      | _ => none
  | .guardValue => args[0]?.bind fun loc =>
      match memory loc with
      | .address p => some p
      | _ => none

/-- The arms of a version of the pass. -/
def Source.arms : Source → List Arm
  | .helloWorldCpp => HelloWorldCpp.invokeArms ++ HelloWorldCpp.callArms
  | .functionCpp => FunctionCpp.invokeArms

/-- A guard: its number, the thread that acquired it, the lock, and where its lock record stands in
the log if the acquisition was probed. -/
structure Guard (T P : Type*) where
  id : ℕ
  tid : T
  kind : GuardKind
  lock : P
  record : Option ℕ
  deriving DecidableEq

/-- The two guards are of one lock, which does not admit both at once. -/
def Guard.Excludes {T P : Type*} (g h : Guard T P) : Prop :=
  g.lock = h.lock ∧ g.kind.excludes h.kind = true

/-- A guard excludes those that exclude it. -/
theorem Guard.Excludes.symm {T P : Type*} {g h : Guard T P} (hgh : g.Excludes h) : h.Excludes g :=
  ⟨hgh.1.symm, by rw [GuardKind.excludes_comm]; exact hgh.2⟩

namespace Threads

/-! ## States -/

/-- What a record is about: the access of its thread with a number, an acquisition, or the release
of a guard. -/
inductive Subject (T P : Type*) where
  | access (n : ℕ)
  | acquisition
  | release (g : Guard T P)
  deriving DecidableEq

/-- A record of the log: the thread, the call of the probe, what it is about, and the guards that
the thread held. -/
structure Entry (T P : Type*) where
  tid : T
  call : ProbeCall P
  subject : Subject T P
  held : List (Guard T P)
  deriving DecidableEq

/-- What names an access: its thread, its number among the accesses of the thread, and the
operation. -/
structure AccessId (T : Type*) where
  tid : T
  num : ℕ
  op : Op
  deriving DecidableEq

/-- A probed access that took effect, with the guards that its thread held. -/
structure Access (T P : Type*) where
  id : AccessId T
  addr : P
  held : List (Guard T P)
  deriving DecidableEq

/-- The access that a record is of. -/
def Entry.access {T P : Type*} (e : Entry T P) : Option (AccessId T) :=
  match e.subject with
  | .access n => some ⟨e.tid, n, e.call.op⟩
  | _ => none

/-- Where a thread is: between operations, or between the two steps of one. -/
inductive Pending (T P : Type*) where
  | idle
  /-- The store is recorded and not yet performed. -/
  | store (n : ℕ) (x : P)
  /-- The load is performed and not yet recorded. -/
  | load (n : ℕ) (x : P)
  /-- The lock is to be acquired. -/
  | acquire (kind : GuardKind) (lock : P) (record : Option ℕ)
  /-- The guard is to be released. -/
  | release (g : Guard T P)

/-- The number and the operation of the access that a thread is in. -/
def Pending.access {T P : Type*} : Pending T P → Option (ℕ × Op)
  | .store n _ => some (n, .store)
  | .load n _ => some (n, .load)
  | _ => none

/-- A state. -/
structure State (T P : Type*) where
  /-- Where each thread is. -/
  pending : T → Pending T P
  /-- How many probed accesses each thread has begun. -/
  count : T → ℕ
  memory : P → Cell P
  /-- Where the guard with a number stands in memory. -/
  place : ℕ → Option P
  /-- The guards that are held. -/
  held : List (Guard T P)
  /-- The guards that were acquired, in order. -/
  sections : List (Guard T P)
  /-- The records, in order. -/
  log : List (Entry T P)
  /-- The probed accesses, in the order in which they took effect on memory. -/
  performed : List (Access T P)

variable {T P : Type*} [DecidableEq T] [DecidableEq P]

/-- The start. -/
def init (memory : P → Cell P) : State T P :=
  ⟨fun _ => .idle, fun _ => 0, memory, fun _ => none, [], [], [], []⟩

namespace State

/-- The guards that a thread holds. -/
def guardsOf (s : State T P) (t : T) : List (Guard T P) := s.held.filter fun g => g.tid = t

/-- The accesses that were recorded, in the order of their records. -/
def recorded (s : State T P) : List (AccessId T) := s.log.filterMap Entry.access

/-- The accesses that took effect, in this order. -/
def done (s : State T P) : List (AccessId T) := s.performed.map Access.id

/-- A guard that is held stands at `x`. -/
def Guarded (s : State T P) (x : P) : Prop := ∃ g ∈ s.held, s.place g.id = some x

instance (s : State T P) (x : P) : Decidable (s.Guarded x) :=
  inferInstanceAs (Decidable (∃ g ∈ s.held, s.place g.id = some x))

/-- No guard is held that excludes one of this kind of the lock. -/
def Free (s : State T P) (kind : GuardKind) (lock : P) : Prop :=
  ∀ g ∈ s.held, g.lock = lock → g.kind.excludes kind = false

instance (s : State T P) (kind : GuardKind) (lock : P) : Decidable (s.Free kind lock) :=
  inferInstanceAs (Decidable (∀ g ∈ s.held, g.lock = lock → g.kind.excludes kind = false))

/-- The thread is now at `p`. -/
def goto (s : State T P) (t : T) (p : Pending T P) : State T P :=
  { s with pending := Function.update s.pending t p }

/-- The thread has begun its next access. -/
def counted (s : State T P) (t : T) : State T P :=
  { s with count := Function.update s.count t (s.count t + 1) }

/-- A probe appends its record. -/
def probe (s : State T P) (t : T) (call : ProbeCall P) (subject : Subject T P) : State T P :=
  { s with log := s.log ++ [⟨t, call, subject, s.guardsOf t⟩] }

/-- A probed access takes effect. -/
def perform (s : State T P) (t : T) (n : ℕ) (op : Op) (x : P) : State T P :=
  { s with performed := s.performed ++ [⟨⟨t, n, op⟩, x, s.guardsOf t⟩] }

/-- Memory is written. -/
def write (s : State T P) (x : P) (value : Cell P) : State T P :=
  { s with memory := Function.update s.memory x value }

/-- A lock is acquired, and its guard stands at `dst`. -/
def grant (s : State T P) (t : T) (kind : GuardKind) (lock : P) (record : Option ℕ) (dst : P) :
    State T P :=
  { s with
    memory := Function.update s.memory dst (kind.cell lock)
    place := Function.update s.place s.sections.length (some dst)
    held := s.held ++ [⟨s.sections.length, t, kind, lock, record⟩]
    sections := s.sections ++ [⟨s.sections.length, t, kind, lock, record⟩] }

/-- A guard is dropped. -/
def drop (s : State T P) (g : Guard T P) : State T P :=
  { s with held := s.held.erase g }

omit [DecidableEq P] in
/-- Where a thread goes. -/
@[simp] theorem pending_goto_self (s : State T P) (t : T) (p : Pending T P) :
    (s.goto t p).pending t = p :=
  Function.update_self ..

omit [DecidableEq P] in
/-- The other threads stay where they are. -/
theorem pending_goto_of_ne (s : State T P) {t u : T} (hu : u ≠ t) (p : Pending T P) :
    (s.goto t p).pending u = s.pending u :=
  Function.update_of_ne hu ..

/-! ## The guards of a thread -/

omit [DecidableEq P] in
/-- The guards of a thread are held by it. -/
theorem mem_guardsOf {s : State T P} {t : T} {g : Guard T P} :
    g ∈ s.guardsOf t ↔ g ∈ s.held ∧ g.tid = t := by
  simp [guardsOf]

/-- A guard that is granted is one of its thread. -/
theorem guardsOf_grant_self (s : State T P) (t : T) (kind : GuardKind) (lock : P)
    (record : Option ℕ) (dst : P) : (s.grant t kind lock record dst).guardsOf t =
      s.guardsOf t ++ [⟨s.sections.length, t, kind, lock, record⟩] := by
  simp [guardsOf, grant, List.filter_append]

/-- The other threads hold what they held when a guard is granted. -/
theorem guardsOf_grant_of_ne (s : State T P) {t u : T} (hu : u ≠ t) (kind : GuardKind) (lock : P)
    (record : Option ℕ) (dst : P) :
    (s.grant t kind lock record dst).guardsOf u = s.guardsOf u := by
  simp [guardsOf, grant, List.filter_append, Ne.symm hu]

/-- A guard that is dropped is taken from the guards of each thread. -/
theorem guardsOf_drop (s : State T P) (g : Guard T P) (u : T) :
    (s.drop g).guardsOf u = (s.guardsOf u).erase g :=
  List.erase_filter.symm

/-- The other threads hold what they held when a guard is dropped. -/
theorem guardsOf_drop_of_ne (s : State T P) {g : Guard T P} {u : T} (hu : u ≠ g.tid) :
    (s.drop g).guardsOf u = s.guardsOf u := by
  rw [guardsOf_drop, List.erase_of_not_mem]
  exact fun hmem => hu (mem_guardsOf.mp hmem).2.symm

end State

/-! ## Steps -/

/-- The debug line and the name that a probe is given. -/
structure Location where
  line : Line
  file : List Char
  deriving DecidableEq

/-- The steps of the threads. -/
inductive Action (T P : Type*) where
  /-- A store is probed, and performed. -/
  | storeProbe (t : T) (loc : Location) (x : P)
  | store (t : T) (value : Cell P)
  /-- A load is performed, and probed. -/
  | load (t : T) (x : P)
  | loadProbe (t : T) (loc : Location)
  /-- A store that is not probed. -/
  | write (t : T) (x : P) (value : Cell P)
  /-- An acquisition is probed, or is not, and is performed. -/
  | lockProbe (t : T) (loc : Location) (arm : Arm) (kind : GuardKind) (args : List P) (addr : P)
  | lockBare (t : T) (kind : GuardKind) (lock : P)
  | acquire (t : T) (kind : GuardKind) (dst : P)
  /-- From now on the guard stands at `dst`. -/
  | move (g : Guard T P) (dst : P)
  /-- The release of a guard is probed, or is not, and is performed. -/
  | unlockProbe (loc : Location) (arm : Arm) (g : Guard T P) (addr : P)
  | unlockBare (g : Guard T P)
  | release (g : Guard T P)

open Threads.State

/-- The steps. A thread begins an operation when it is idle, and goes on with it else. -/
inductive Step (src : Source) : State T P → Action T P → State T P → Prop
  | storeProbe {s : State T P} {t : T} {loc : Location} {x : P} : s.pending t = .idle →
      Step src s (.storeProbe t loc x)
        (((s.probe t (.probe loc.line loc.file .store x) (.access (s.count t))).counted t).goto t
          (.store (s.count t) x))
  | store {s : State T P} {t : T} {n : ℕ} {x : P} {value : Cell P} : s.pending t = .store n x →
      Step src s (.store t value) (((s.write x value).perform t n .store x).goto t .idle)
  | load {s : State T P} {t : T} {x : P} : s.pending t = .idle →
      Step src s (.load t x)
        (((s.perform t (s.count t) .load x).counted t).goto t (.load (s.count t) x))
  | loadProbe {s : State T P} {t : T} {n : ℕ} {x : P} {loc : Location} :
      s.pending t = .load n x →
      Step src s (.loadProbe t loc)
        ((s.probe t (.probe loc.line loc.file .load x) (.access n)).goto t .idle)
  | write {s : State T P} {t : T} {x : P} {value : Cell P} : s.pending t = .idle →
      Step src s (.write t x value) (s.write x value)
  | lockProbe {s : State T P} {t : T} {loc : Location} {arm : Arm} {kind : GuardKind}
      {args : List P} {lock addr : P} : s.pending t = .idle →
      arm ∈ src.arms → arm.op.role = .acquire kind → args[kind.lockOperand]? = some lock →
      (∀ p, arm.route.eval s.memory args = some p → addr = p) →
      Step src s (.lockProbe t loc arm kind args addr)
        ((s.probe t (.probeLock loc.line loc.file arm.op addr) .acquisition).goto t
          (.acquire kind lock (some s.log.length)))
  | lockBare {s : State T P} {t : T} {kind : GuardKind} {lock : P} : s.pending t = .idle →
      Step src s (.lockBare t kind lock) (s.goto t (.acquire kind lock none))
  | acquire {s : State T P} {t : T} {kind : GuardKind} {lock dst : P} {record : Option ℕ} :
      s.pending t = .acquire kind lock record → s.Free kind lock →
      Step src s (.acquire t kind dst) ((s.grant t kind lock record dst).goto t .idle)
  | move {s : State T P} {g : Guard T P} {x dst : P} : s.pending g.tid = .idle → g ∈ s.held →
      s.place g.id = some x → s.memory dst = s.memory x →
      Step src s (.move g dst) { s with place := Function.update s.place g.id (some dst) }
  | unlockProbe {s : State T P} {loc : Location} {arm : Arm} {g : Guard T P} {x addr : P} :
      s.pending g.tid = .idle → g ∈ s.held → s.place g.id = some x →
      arm ∈ src.arms → arm.op.role = .release g.kind →
      (∀ p, arm.route.eval s.memory [x] = some p → addr = p) →
      Step src s (.unlockProbe loc arm g addr)
        ((s.probe g.tid (.probeLock loc.line loc.file arm.op addr) (.release g)).goto g.tid
          (.release g))
  | unlockBare {s : State T P} {g : Guard T P} : s.pending g.tid = .idle → g ∈ s.held →
      Step src s (.unlockBare g) (s.goto g.tid (.release g))
  | release {s : State T P} {g : Guard T P} : s.pending g.tid = .release g →
      Step src s (.release g) ((s.drop g).goto g.tid .idle)

end Threads

end AtomicityViolation
