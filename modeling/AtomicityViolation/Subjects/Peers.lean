import Mathlib.Data.Fintype.Basic
import Mathlib.Logic.Function.Basic

/-!
# The peers of `grin_24i0013`

`add_peer` puts a peer into the vector in one section of the vector's lock, and starts it in a later
section of the peer's own lock. `broadcast` and `close_peers` go through the vector while they hold
its lock, and unwrap the channels of the peers that they find, which a peer has from its start on.

The threads take turns at their locked sections. The section of a peer's lock is one step: only the
thread that goes through the vector reads the peer, and only its `add_peer` writes to it. A panic
there leaves the peer's lock as it was, since a reader does not poison a lock, and poisons that of
the vector. The polling threads are those of the started peers.
-/

namespace AtomicityViolation

namespace Peers

/-- Where a polling thread stands: not spawned, before its look at either channel, behind the
`break`, or gone with its receivers. -/
inductive Poll where
  | absent
  | send
  | close
  | leaving
  | gone
  deriving DecidableEq, Repr

/-- A channel for closing: the messages in it, and those that were sent to it. -/
structure CloseChannel where
  waiting : ℕ
  sent : ℕ
  deriving DecidableEq, Repr

/-- A peer and its polling thread. A sender is given as what its channel holds: it is not cloned,
and the receiver belongs to the polling thread. -/
structure Peer where
  send_channel : Option (List UInt32)
  close_channel : Option CloseChannel
  poll : Poll
  deriving DecidableEq, Repr

/-- The error of a `try_send` or `send`. The callers print that there was one. -/
inductive SendError where
  | full
  | disconnected
  deriving DecidableEq, Repr

namespace Peer

/-- A peer without channels. -/
def new : Peer := ⟨none, none, .absent⟩

/-- `try_send` on the channel of ten values. `none` is the panic of the `unwrap`. -/
def send (P : Peer) (val : UInt32) : Option (Except SendError Unit × Peer) :=
  match P.send_channel with
  | none => none
  | some queue =>
    if P.poll = .gone then some (.error .disconnected, P)
    else if queue.length < 10 then some (.ok (), { P with send_channel := some (queue ++ [val]) })
    else some (.error .full, P)

/-- `close`. `none` is the panic of the `unwrap`. -/
def close (P : Peer) : Option (Except SendError Unit × Peer) :=
  match P.close_channel with
  | none => none
  | some c =>
    if P.poll = .gone then some (.error .disconnected, P)
    else some (.ok (), { P with close_channel := some ⟨c.waiting + 1, c.sent + 1⟩ })

end Peer

/-- `listen`: two channels, and the polling thread that has their receivers. -/
def listen : List UInt32 × CloseChannel × Poll := ([], ⟨0, 0⟩, .send)

namespace Peer

/-- `start`. -/
def start (_ : Peer) : Peer :=
  let (send_channel, close_channel, poll) := listen
  ⟨some send_channel, some close_channel, poll⟩

/-- The next step of the polling thread: a `try_recv` of each channel in turn, until there was a
message to close. -/
def polled (P : Peer) : Option Peer :=
  match P.poll with
  | .absent | .gone => none
  | .send => some { P with send_channel := P.send_channel.map List.tail, poll := .close }
  | .close =>
    match P.close_channel with
    | some ⟨waiting + 1, sent⟩ =>
      some { P with close_channel := some ⟨waiting, sent⟩, poll := .leaving }
    | _ => some { P with poll := .send }
  | .leaving => some { P with poll := .gone }

end Peer

/-- Where a thread stands: in no call; in `add_peer`, before its first section, and before the
second one with the peer that it has put into the vector; in `broadcast` or `close_peers`, before it
has the lock, and in the loop with the peers that it has not come to; or gone by a panic. -/
inductive Pc where
  | idle
  | publish
  | start (i : ℕ)
  | broadcast (val : UInt32)
  | sending (val : UInt32) (rest : List ℕ)
  | close
  | closing (rest : List ℕ)
  | panicked
  deriving DecidableEq, Repr

/-- The vector with its lock, all peers that were made, and the threads. The vector has the
positions of its peers in the list of all. -/
structure State (T : Type*) where
  peers : List ℕ
  owner : Option T
  poisoned : Bool
  made : List Peer
  pc : T → Pc

variable {T : Type*}

/-- `Peers::new`, before any call. -/
def new : State T := ⟨[], none, false, [], fun _ => .idle⟩

/-- What happens: a thread calls one of the operations or takes the next step of its call, or the
polling thread of a peer takes a step. -/
inductive Action (T : Type*) where
  | add_peer (t : T)
  | broadcast (t : T) (val : UInt32)
  | close_peers (t : T)
  | run (t : T)
  | poll (i : ℕ)
  deriving DecidableEq, Repr

section Steps

variable [DecidableEq T]

/-- Thread `t` comes to stand at `pc`. -/
def State.goto (s : State T) (t : T) (pc : Pc) : State T :=
  { s with pc := Function.update s.pc t pc }

/-- Thread `t` calls an operation, if it is in none. -/
def State.call (s : State T) (t : T) (pc : Pc) : Option (State T) :=
  if s.pc t = .idle then some (s.goto t pc) else none

/-- Thread `t` panics where it holds the lock of the vector, or at the `unwrap` of the poisoned
lock. -/
def State.panic (s : State T) (t : T) : State T :=
  { s.goto t .panicked with owner := none, poisoned := true }

/-- `self.peers.write().unwrap()`: the thread waits for the lock, and panics if it is poisoned. -/
def State.write (s : State T) (t : T) (locked : State T) : Option (State T) :=
  if s.owner.isSome then none
  else if s.poisoned then some (s.panic t)
  else some locked

/-- The next step of the call that a thread is in. -/
def State.run (s : State T) (t : T) : Option (State T) :=
  match s.pc t with
  | .idle | .panicked => none
  | .publish =>
    s.write t { s.goto t (.start s.made.length) with
      made := s.made ++ [Peer.new], peers := s.peers ++ [s.made.length] }
  | .start i =>
    match s.made[i]? with
    | none => none
    | some P => some { s.goto t .idle with made := s.made.set i P.start }
  | .broadcast val => s.write t { s.goto t (.sending val s.peers) with owner := some t }
  | .sending _ [] => some { s.goto t .idle with owner := none }
  | .sending val (i :: rest) =>
    match s.made[i]? with
    | none => none
    | some P =>
      match P.send val with
      | none => some (s.panic t)
      | some (_, P') => some { s.goto t (.sending val rest) with made := s.made.set i P' }
  | .close =>
    -- The vector is empty from the call of `drain` on.
    s.write t { s.goto t (.closing s.peers) with owner := some t, peers := [] }
  | .closing [] => some { s.goto t .idle with owner := none }
  | .closing (i :: rest) =>
    match s.made[i]? with
    | none => none
    | some P =>
      match P.close with
      | none => some (s.panic t)
      | some (_, P') => some { s.goto t (.closing rest) with made := s.made.set i P' }

/-- The steps of the threads. -/
def step (s : State T) : Action T → Option (State T)
  | .add_peer t => s.call t .publish
  | .broadcast t val => s.call t (.broadcast val)
  | .close_peers t => s.call t .close
  | .run t => s.run t
  | .poll i => (s.made[i]?.bind Peer.polled).map fun P => { s with made := s.made.set i P }

end Steps

/-! ## What is to be kept -/

/-- The number of close messages that a peer was sent. -/
def Peer.closes (P : Peer) : ℕ :=
  match P.close_channel with
  | none => 0
  | some c => c.sent

/-- The polling thread will look at a channel with a message to close, or has done so. -/
def Peer.Ending (P : Peer) : Prop :=
  P.poll = .leaving ∨ P.poll = .gone ∨ ∃ c, P.close_channel = some c ∧ 0 < c.waiting

/-- No channel is found absent, and every peer that was started can be stopped. -/
structure Kept (s : State T) : Prop where
  /-- No `unwrap` panics. -/
  panicked : ∀ t, s.pc t ≠ .panicked
  /-- The lock of the vector is not poisoned. -/
  poisoned : s.poisoned = false
  /-- When no call is in progress, a peer with channels is in the vector, or was sent one message to
  close. -/
  closed : (∀ t, s.pc t = .idle) → ∀ i P, s.made[i]? = some P → P.close_channel.isSome = true →
    i ∈ s.peers ∧ P.closes = 0 ∨ i ∉ s.peers ∧ P.closes = 1
  /-- A polling thread is then that of a peer in the vector, or is about to end. -/
  stoppable : (∀ t, s.pc t = .idle) → ∀ i P, s.made[i]? = some P → P.poll ≠ .absent →
    i ∈ s.peers ∨ P.Ending

/-- The peer that the loop of a thread comes to next. -/
def Pc.peer : Pc → Option ℕ
  | .sending _ rest | .closing rest => rest.head?
  | _ => none

/-- If the step is that of a loop at a peer, no `add_peer` still has to start this peer. -/
def Started (s : State T) : Action T → Prop
  | .run t => ∀ i ∈ (s.pc t).peer, ∀ u, s.pc u ≠ .start i
  | _ => True

instance [Fintype T] (s : State T) : (a : Action T) → Decidable (Started s a)
  | .add_peer _ | .broadcast .. | .close_peers _ | .poll _ => isTrue trivial
  | .run t => inferInstanceAs (Decidable (∀ i ∈ (s.pc t).peer, ∀ u, s.pc u ≠ .start i))

end Peers

end AtomicityViolation
