import AtomicityViolation.Library.Run

/-!
# The channel of `tokio_59c0044`

A channel for one value: a cell, and two flags that are set with `fetch_or`. `send` writes the
value and sets `VALUE_SENT`, and takes the value back if the channel was closed. `try_recv` loads
the flags and takes the value if it was sent, and then gives up its handle, whatever came of it. It
looks at `VALUE_SENT` before `CLOSED`; the code that is commented out looks at `CLOSED` first.

The two sides take turns at the accesses of the flags and of the cell, every access being one step.
What a side does with its own handle comes with the access before it.
-/

namespace AtomicityViolation

namespace Oneshot

open Transition (Run ofFunction)

/-- The flag that a value was sent. -/
def VALUE_SENT : BitVec 64 := 0b00010

/-- The flag that the channel was closed. -/
def CLOSED : BitVec 64 := 0b00100

/-- `VALUE_SENT` is set. -/
def is_complete (state : BitVec 64) : Bool := state &&& VALUE_SENT == VALUE_SENT

/-- `CLOSED` is set. -/
def is_closed (state : BitVec 64) : Bool := state &&& CLOSED == CLOSED

/-- Where the sending side stands: it has its `Sender`; in `send` before the write, before
`complete`, and before it takes the value back; before the `Sender` is dropped; and behind that. -/
inductive TxPc where
  | holding
  | write
  | complete
  | consume
  | drop
  | done
  deriving DecidableEq, Repr

/-- Where the receiving side stands: in no call, in `try_recv` before its load and before it takes
the value, before the `Receiver` is dropped, and behind that. -/
inductive RxPc where
  | idle
  | poll
  | consume
  | drop
  | done
  deriving DecidableEq, Repr

/-- The two sides. -/
inductive Side where
  | sender
  | receiver
  deriving DecidableEq, Repr

/-- A channel with its two sides. `tx_inner` and `rx_inner` say whether `inner` of the `Sender` and
of the `Receiver` is there, `sent` and `received` are what `send` and the calls of `try_recv` have
returned, and `taken` records who has taken a value out of the cell. -/
structure Channel (T : Type*) where
  state : BitVec 64
  value : Option T
  tx_inner : Bool
  tx : TxPc
  sent : Option (Except T Unit)
  rx_inner : Bool
  rx : RxPc
  received : List (Except String T)
  taken : List (Side × T)
  panicked : Bool

variable {T : Type*}

/-- A new channel. -/
def channel : Channel T := ⟨0, none, true, .holding, none, true, .idle, [], [], false⟩

/-- What happens: `send` is called or the `Sender` is dropped without, the sending side takes a
step, `try_recv` is called or the `Receiver` is dropped, the receiving side takes a step, and
`close` is called on the channel itself. -/
inductive Action where
  | send
  | drop_tx
  | tx
  | try_recv
  | drop_rx
  | rx
  | close
  deriving DecidableEq, Repr

/-- `Inner::complete`, which answers whether the channel was not closed. -/
def Channel.complete (s : Channel T) : Bool × Channel T :=
  (!is_closed s.state, { s with state := s.state ||| VALUE_SENT })

/-- `Inner::close`. -/
def Channel.close (s : Channel T) : Channel T := { s with state := s.state ||| CLOSED }

/-- `Inner::consume_value`, called by a side. -/
def Channel.consume_value (s : Channel T) (side : Side) : Option (T × Channel T) :=
  s.value.map fun v => (v, { s with value := none, taken := s.taken ++ [(side, v)] })

/-- The step of the sending side, which sends `t`. -/
def Channel.txStep (t : T) (s : Channel T) : Option (Channel T) :=
  match s.tx with
  | .holding | .done => none
  | .write => some { s with value := some t, tx := .complete }
  | .complete =>
    match s.complete with
    | (true, s') => some { s' with tx := .drop, sent := some (.ok ()) }
    | (false, s') => some { s' with tx := .consume }
  | .consume =>
    match s.consume_value .sender with
    | none => some { s with tx := .drop, panicked := true }
    | some (v, s') => some { s' with tx := .drop, sent := some (.error v) }
  | .drop => some { (if s.tx_inner then s.complete.2 else s) with tx := .done }

/-- `try_recv` returns, and gives up its handle. -/
def Channel.answer (s : Channel T) (result : Except String T) : Channel T :=
  { s with rx_inner := false, rx := .idle, received := s.received ++ [result] }

/-- The step of the receiving side. -/
def Channel.rxStep (s : Channel T) : Option (Channel T) :=
  match s.rx with
  | .idle | .done => none
  | .poll =>
    if s.rx_inner = false then some (s.answer (.error "inner is not referencable"))
    else if is_complete s.state then some { s with rx := .consume }
    else if is_closed s.state then some (s.answer (.error "channel is closed!"))
    else some (s.answer (.error "not complete not closed"))
  | .consume =>
    match s.consume_value .receiver with
    | none => some (s.answer (.error "receiver consume value failed!"))
    | some (v, s') => some (s'.answer (.ok v))
  | .drop => some { (if s.rx_inner then s.close else s) with rx := .done }

/-- The steps, where the value to be sent is `t`. -/
def step (t : T) (s : Channel T) : Action → Option (Channel T)
  | .send =>
    if s.tx = .holding then
      if s.tx_inner then some { s with tx_inner := false, tx := .write }
      else some { s with tx := .drop, panicked := true }
    else none
  | .drop_tx => if s.tx = .holding then some { s with tx := .drop } else none
  | .tx => s.txStep t
  | .try_recv => if s.rx = .idle then some { s with rx := .poll } else none
  | .drop_rx => if s.rx = .idle then some { s with rx := .drop } else none
  | .rx => s.rxStep
  | .close => some s.close

/-! ## What is to be handed over -/

/-- The `Receiver` is dropped, or is about to be. -/
def RxPc.dropped : RxPc → Bool
  | .drop | .done => true
  | _ => false

/-- The value is handed over once, if at all. -/
structure HandedOver (t : T) (s : Channel T) : Prop where
  /-- No `unwrap` panics. -/
  panicked : s.panicked = false
  /-- The value was taken out once at most. -/
  once : s.taken.length ≤ 1
  /-- `send` returns the value only if it has taken it back. -/
  error : ∀ v, s.sent = some (.error v) → v = t ∧ s.taken = [(.sender, t)]
  /-- `try_recv` returns it only if it has taken it. -/
  received : ∀ v, .ok v ∈ s.received → v = t ∧ s.taken = [(.receiver, t)]
  /-- When `send` has succeeded, `try_recv` has returned the value, or the `Receiver` is dropped, or
  the value is there for it: the next `try_recv` returns it. -/
  ok : s.sent = some (.ok ()) → .ok t ∈ s.received ∨ s.rx.dropped = true ∨
    s.value = some t ∧ s.rx_inner = true ∧ (s.rx = .idle →
      ∃ s', Run (ofFunction (step t)) s [.try_recv, .rx, .rx] s' ∧
        s'.received = s.received ++ [.ok t])

/-- If the step takes the value in `try_recv`, `send` is not about to take it back, and if it lets
`send` succeed, the `Receiver` is dropped or has not given up its handle. -/
def Orderly (s : Channel T) : Action → Prop
  | .rx => s.rx = .consume → s.tx ≠ .consume
  | .tx => s.tx = .complete → is_closed s.state = false → s.rx_inner = true ∨ s.rx.dropped = true
  | _ => True

instance (s : Channel T) : (a : Action) → Decidable (Orderly s a)
  | .rx => inferInstanceAs (Decidable (s.rx = .consume → s.tx ≠ .consume))
  | .tx => inferInstanceAs (Decidable (s.tx = .complete → is_closed s.state = false →
      s.rx_inner = true ∨ s.rx.dropped = true))
  | .send | .drop_tx | .try_recv | .drop_rx | .close => isTrue trivial

end Oneshot

end AtomicityViolation
