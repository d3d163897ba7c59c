import AtomicityViolation.Library.LinkedList

/-!
# The bag of `crossbeam_10c0012`

`ConcBag` is a linked list behind an atomic pointer. `insert` allocates a node and swaps it in for
the head that it points to, until the swap succeeds. `collect` loads the head, sleeps, stores null
into `head`, and then walks from the pointer it loaded and frees what it meets. Between its load and
its store the head can change. The code that is commented out in `collect` swaps null in instead.
`print_concbag` follows the pointers from the head on and prints the data.

The threads take turns at the accesses of `head` and of nodes, every access being one step. The
allocator may give out the address of a node that was freed.
-/

namespace AtomicityViolation

namespace ConcBag

open LinkedList (Reaches)

variable {T A : Type*}

/-- A node. `id` is the number of its allocation, and tells apart the nodes that have the same
address one after the other; the code has no such field. -/
structure Node (A : Type*) where
  id : ℕ
  data : String
  next : Option A
  deriving DecidableEq, Repr

/-- The node that a call of `insert` has allocated, `n` in the code: its address, its number and the
data that the caller gave. -/
structure Raw (A : Type*) where
  ptr : A
  id : ℕ
  data : String
  deriving DecidableEq, Repr

/-- Where a thread stands: in no call, in `insert` before its load, its store and its
`compare_and_swap`, or in `collect` before its load, before its store, at the test of the loop, and
in the loop before the load of `next` and before the end of the scope of `n`. A thread that
used memory that was freed is gone. -/
inductive Pc (A : Type*) where
  | idle
  | load (n : Raw A)
  | store (n : Raw A) (head : Option A)
  | swap (n : Raw A) (head : Option A)
  | collect
  | detach (head : Option A)
  | walk (head : Option A)
  | next (n : A)
  | drop (n : A) (head : Option A)
  | crashed
  deriving DecidableEq, Repr

/-- A use of memory that was freed. -/
inductive Fault where
  | useAfterFree
  | doubleFree
  deriving DecidableEq, Repr

/-- A call of `insert` whose swap succeeded. -/
structure Insertion (T : Type*) where
  thread : T
  id : ℕ
  data : String
  deriving DecidableEq, Repr

/-- The bag and the threads that use it. The last four fields record what happened: the number of
allocations, the swaps of `insert` that succeeded, the nodes that were freed, and the faults. -/
structure State (T A : Type*) where
  head : Option A
  heap : A → Option (Node A)
  pc : T → Pc A
  allocations : ℕ
  linked : List (Insertion T)
  freed : List ℕ
  faults : List Fault

/-- An empty bag that no thread uses. -/
def start : State T A := ⟨none, fun _ => none, fun _ => .idle, 0, [], [], []⟩

/-- What a thread does: it calls `insert`, whose node the allocator puts at an address, it calls
`collect`, or it takes the next step of its call. -/
inductive Action (T A : Type*) where
  | insert (t : T) (data : String) (n : A)
  | collect (t : T)
  | run (t : T)
  deriving DecidableEq, Repr

section Steps

variable [DecidableEq T] [DecidableEq A]

/-- Thread `t` comes to stand at `pc`. -/
def State.goto (s : State T A) (t : T) (pc : Pc A) : State T A :=
  { s with pc := Function.update s.pc t pc }

/-- Thread `t` uses memory that was freed. -/
def State.crash (s : State T A) (t : T) (fault : Fault) : State T A :=
  { s.goto t .crashed with faults := s.faults ++ [fault] }

/-- The next step of the call that a thread is in. -/
def State.run (s : State T A) (t : T) : Option (State T A) :=
  match s.pc t with
  | .idle | .crashed => none
  | .load n => some (s.goto t (.store n s.head))
  | .store n head =>
    match s.heap n.ptr with
    | none => some (s.crash t .useAfterFree)
    | some c =>
      some { s.goto t (.swap n head) with
        heap := Function.update s.heap n.ptr (some { c with next := head }) }
  | .swap n head =>
    if s.head = head then
      some { s.goto t .idle with
        head := some n.ptr, linked := s.linked ++ [⟨t, n.id, n.data⟩] }
    else some (s.goto t (.load n))
  | .collect => some (s.goto t (.detach s.head))
  | .detach head => some { s.goto t (.walk head) with head := none }
  | .walk none => some (s.goto t .idle)
  | .walk (some n) =>
    -- The data is printed.
    match s.heap n with
    | none => some (s.crash t .useAfterFree)
    | some _ => some (s.goto t (.next n))
  | .next n =>
    match s.heap n with
    | none => some (s.crash t .useAfterFree)
    | some c => some (s.goto t (.drop n c.next))
  | .drop n head =>
    match s.heap n with
    | none => some (s.crash t .doubleFree)
    | some c =>
      some { s.goto t (.walk head) with
        heap := Function.update s.heap n none, freed := s.freed ++ [c.id] }

/-- The steps of the threads. -/
def step (s : State T A) : Action T A → Option (State T A)
  | .insert t data n =>
    match s.pc t, s.heap n with
    | .idle, none =>
      some { s.goto t (.load ⟨n, s.allocations, data⟩) with
        heap := Function.update s.heap n (some ⟨s.allocations, data, none⟩)
        allocations := s.allocations + 1 }
    | _, _ => none
  | .collect t =>
    match s.pc t with
    | .idle => some (s.goto t .collect)
    | _ => none
  | .run t => s.run t

end Steps

/-! ## Printing -/

/-- The loop of `print_concbag` at a node, behind what was printed so far: the lines that are
printed in the end, or `none` if that takes more than `fuel` turns. -/
def State.printFrom (s : State T A) (caller : String) :
    ℕ → Option A → List String → Option (Except Fault (List String))
  | _, none, printed => some (.ok printed)
  | 0, some _, _ => none
  | fuel + 1, some node, printed =>
    match s.heap node with
    | none => some (.error .useAfterFree)
    | some n => s.printFrom caller fuel n.next (printed ++ [caller ++ " - " ++ n.data])

/-- `print_concbag`, while no other thread takes a step. -/
def State.print_concbag (s : State T A) (caller : String) (fuel : ℕ) :
    Option (Except Fault (List String)) :=
  s.printFrom caller fuel s.head ["printing - " ++ caller]

/-! ## What is to be kept -/

/-- What the nodes carry as `next`. -/
def State.next (s : State T A) (a : A) : Option (Option A) := (s.heap a).map Node.next

/-- Node `k` is met when one follows a pointer. -/
def State.Meets (s : State T A) (p : Option A) (k : ℕ) : Prop :=
  ∃ a c, Reaches s.next p a ∧ s.heap a = some c ∧ c.id = k

/-- The chain that a running `collect` has for itself. -/
def Pc.chain : Pc A → Option A
  | .walk head => head
  | .next n | .drop n _ => some n
  | _ => none

/-- No node is lost, none is freed twice, and none is used after it was freed. -/
structure Kept (s : State T A) : Prop where
  /-- A node that was linked is in the bag, on the chain of one `collect`, or freed. -/
  placed : ∀ i ∈ s.linked,
    s.Meets s.head i.id ∨ (∃! t, s.Meets (s.pc t).chain i.id) ∨ i.id ∈ s.freed
  /-- It is only one of these. -/
  apart : ∀ k, s.Meets s.head k → k ∉ s.freed ∧ ∀ t, ¬ s.Meets (s.pc t).chain k
  /-- What a `collect` is about to read and to free was linked, and was not freed. -/
  owned : ∀ t k, s.Meets (s.pc t).chain k → (∃ i ∈ s.linked, i.id = k) ∧ k ∉ s.freed
  /-- No node was freed twice. -/
  once : s.freed.Nodup
  /-- No step used a freed node. -/
  faults : s.faults = []

/-- The pointer that a `collect` has loaded and is about to replace by null. -/
def Pc.loaded : Pc A → Option (Option A)
  | .detach head => some head
  | _ => none

/-- If the step stores null into `head`, that still is the pointer that the `collect` has loaded. -/
def Undisturbed (s : State T A) : Action T A → Prop
  | .run t => ∀ head ∈ (s.pc t).loaded, s.head = head
  | _ => True

instance [DecidableEq A] (s : State T A) : (a : Action T A) → Decidable (Undisturbed s a)
  | .insert .. | .collect _ => isTrue trivial
  | .run t => inferInstanceAs (Decidable (∀ head ∈ (s.pc t).loaded, s.head = head))

end ConcBag

end AtomicityViolation
