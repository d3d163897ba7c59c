import AtomicityViolation.Subjects.Oneshot

/-!
# The value is handed over once

A channel that is closed before the value is sent can have it taken by `try_recv` before `send`
takes it back, which panics then, and a channel whose receiver has looked too early has the value
nobody can take (`hand_over_fails`). In all other runs it is handed over once (`handed_over`). The
invariant lists what the cell, the result of `send` and the record of who took the value can be
together (`Cell`).
-/

namespace AtomicityViolation

namespace Oneshot

open Transition (Run ofFunction run_function_iff run_guarded_iff)

/-! ## The flags -/

/-- `complete` sets its flag. -/
theorem is_complete_or_value_sent (s : BitVec 64) : is_complete (s ||| VALUE_SENT) = true := by
  have hset : (s ||| VALUE_SENT) &&& VALUE_SENT = VALUE_SENT := by
    ext i hi
    cases hs : s[i] <;> simp [hs]
  rw [is_complete, hset, beq_self_eq_true]

/-- `close` leaves it as it is. -/
theorem is_complete_or_closed (s : BitVec 64) : is_complete (s ||| CLOSED) = is_complete s := by
  have hclear : CLOSED &&& VALUE_SENT = 0#64 := by decide
  rw [is_complete, BitVec.and_or_distrib_right, hclear, BitVec.or_zero, is_complete]

/-! ## The invariant -/

variable {T : Type*} {t : T} {s s' : Channel T}

/-- What the cell holds, together with what `send` has returned and who has taken the value. -/
inductive Cell (t : T) (s : Channel T) : Prop
  /-- The value was not written. -/
  | unsent : s.tx ≠ .complete ∧ s.tx ≠ .consume → s.sent = none → s.value = none → s.taken = [] →
      Cell t s
  /-- It was written, and `send` has not returned. -/
  | written : s.tx = .complete ∨ s.tx = .consume → s.sent = none → s.value = some t →
      s.taken = [] → Cell t s
  /-- `send` has succeeded, and the value is there for the receiver, unless it was dropped. -/
  | sent : s.tx = .drop ∨ s.tx = .done → s.sent = some (.ok ()) → s.value = some t →
      s.taken = [] → s.rx_inner = true ∨ s.rx.dropped = true → Cell t s
  /-- `try_recv` has returned the value. -/
  | received : s.tx = .drop ∨ s.tx = .done → s.sent = some (.ok ()) → s.value = none →
      s.taken = [(.receiver, t)] → .ok t ∈ s.received → Cell t s
  /-- `send` has returned it. -/
  | returned : s.tx = .drop ∨ s.tx = .done → s.sent = some (.error t) → s.value = none →
      s.taken = [(.sender, t)] → Cell t s

/-- What holds in every state of an orderly run. -/
structure Sound (t : T) (s : Channel T) : Prop where
  /-- The cell is in one of its states. -/
  cell : Cell t s
  /-- No `unwrap` has panicked. -/
  panicked : s.panicked = false
  /-- `VALUE_SENT` is set by `send` behind its write, and at the end of the `Sender`. -/
  flag : is_complete s.state = true → s.tx = .consume ∨ s.tx = .done ∨ s.sent ≠ none
  /-- It is set when `send` takes the value back, and when it returns. -/
  complete : s.tx = .consume ∨ s.sent ≠ none → is_complete s.state = true
  /-- An unused `Sender` has its handle. -/
  holding : s.tx = .holding → s.tx_inner = true
  /-- `try_recv` takes the value because it has seen the flag. -/
  consume : s.rx = .consume → is_complete s.state = true ∧ s.rx_inner = true
  /-- A value that `try_recv` has returned was taken by it. -/
  oks : ∀ v, .ok v ∈ s.received → s.taken = [(.receiver, v)]

/-- In the beginning nothing was sent. -/
theorem sound_channel (t : T) : Sound t channel where
  cell := .unsent ⟨nofun, nofun⟩ rfl rfl rfl
  panicked := rfl
  flag := fun h => by
    have hnot : is_complete 0 = false := by decide
    rw [channel, hnot] at h
    cases h
  complete := fun h => h.elim nofun (absurd rfl)
  holding := fun _ => rfl
  consume := nofun
  oks := nofun

/-- The next `try_recv` returns a value that is there for it. -/
theorem exists_recv (hrx : s.rx = .idle) (hinner : s.rx_inner = true)
    (hcomplete : is_complete s.state = true) (hvalue : s.value = some t) :
    ∃ s', Run (ofFunction (step t)) s [.try_recv, .rx, .rx] s' ∧
      s'.received = s.received ++ [.ok t] := by
  refine ⟨_, .cons (t := { s with rx := .poll }) ?_ (.cons (t := { s with rx := .consume }) ?_
    (.single (t := Channel.answer { s with
      rx := .consume, value := none, taken := s.taken ++ [(.receiver, t)] } (.ok t)) ?_)), rfl⟩
  · simp [ofFunction, step, hrx]
  · simp [ofFunction, step, Channel.rxStep, hinner, hcomplete]
  · simp [ofFunction, step, Channel.rxStep, Channel.consume_value, hvalue]

/-- What the invariant says of the value. -/
theorem Sound.handedOver (h : Sound t s) : HandedOver t s where
  panicked := h.panicked
  once := by
    rcases h.cell with ⟨-, -, -, htaken⟩ | ⟨-, -, -, htaken⟩ | ⟨-, -, -, htaken, -⟩ |
      ⟨-, -, -, htaken, -⟩ | ⟨-, -, -, htaken⟩ <;> simp [htaken]
  error := by
    intro v hv
    rcases h.cell with ⟨-, hsent, -⟩ | ⟨-, hsent, -⟩ | ⟨-, hsent, -⟩ | ⟨-, hsent, -⟩ |
      ⟨-, hsent, -, htaken⟩ <;> rw [hsent] at hv <;> cases hv
    exact ⟨rfl, htaken⟩
  received := by
    intro v hv
    have htaken := h.oks v hv
    rcases h.cell with ⟨-, -, -, htaken'⟩ | ⟨-, -, -, htaken'⟩ | ⟨-, -, -, htaken', -⟩ |
      ⟨-, -, -, htaken', -⟩ | ⟨-, -, -, htaken'⟩ <;> rw [htaken'] at htaken <;> cases htaken
    exact ⟨rfl, htaken'⟩
  ok := by
    intro hok
    have hcomplete := h.complete (.inr (by simp [hok]))
    rcases h.cell with ⟨-, hsent, -⟩ | ⟨-, hsent, -⟩ | ⟨-, -, hvalue, -, hinner | hdropped⟩ |
      ⟨-, -, -, -, hreceived⟩ | ⟨-, hsent, -⟩
    · rw [hok] at hsent
      cases hsent
    · rw [hok] at hsent
      cases hsent
    · exact .inr (.inr ⟨hvalue, hinner, fun hrx => exists_recv hrx hinner hcomplete hvalue⟩)
    · exact .inr (.inl hdropped)
    · exact .inl hreceived
    · rw [hok] at hsent
      cases hsent

/-! ## The sending side keeps it -/

/-- Before the write the value is not there. -/
theorem Cell.unsent_of (h : Cell t s) (htx : s.tx = .holding ∨ s.tx = .write) :
    s.sent = none ∧ s.value = none ∧ s.taken = [] := by
  cases h with
  | unsent _ hsent hvalue htaken => exact ⟨hsent, hvalue, htaken⟩
  | written htx' | sent htx' | received htx' | returned htx' =>
    rcases htx with htx | htx <;> simp [htx] at htx'

/-- Behind it the value is there until `send` returns or takes it back. -/
theorem Cell.written_of (h : Cell t s) (htx : s.tx = .complete ∨ s.tx = .consume) :
    s.sent = none ∧ s.value = some t ∧ s.taken = [] := by
  cases h with
  | unsent htx' => exact absurd htx (not_or.mpr htx')
  | written _ hsent hvalue htaken => exact ⟨hsent, hvalue, htaken⟩
  | sent htx' | received htx' | returned htx' => rcases htx with htx | htx <;> simp [htx] at htx'

/-- Before the value is sent the flag is not set. -/
theorem Sound.not_complete (h : Sound t s)
    (htx : s.tx = .holding ∨ s.tx = .write ∨ s.tx = .complete) : is_complete s.state = false := by
  refine Bool.eq_false_iff.mpr fun hcomplete => ?_
  have hsent : s.sent = none := by
    rcases htx with htx | htx | htx
    · exact (h.cell.unsent_of (.inl htx)).1
    · exact (h.cell.unsent_of (.inr htx)).1
    · exact (h.cell.written_of (.inl htx)).1
  rcases h.flag hcomplete with htx' | htx' | hne
  · simp [htx'] at htx
  · simp [htx'] at htx
  · exact hne hsent

/-- `send` is called, or the `Sender` is dropped. -/
theorem Sound.leave (h : Sound t s) (htx : s.tx = .holding) {tx : TxPc} {tx_inner : Bool}
    (htx' : tx = .write ∨ tx = .drop) : Sound t { s with tx_inner, tx } := by
  obtain ⟨hsent, hvalue, htaken⟩ := h.cell.unsent_of (.inl htx)
  have hnot := h.not_complete (.inl htx)
  refine ⟨.unsent ?_ hsent hvalue htaken, h.panicked, fun hcomplete => ?_, ?_, ?_, h.consume,
    h.oks⟩
  · rcases htx' with rfl | rfl <;> simp
  · exact absurd hcomplete (by simp [hnot])
  · rcases htx' with rfl | rfl <;> simp [hsent]
  · rcases htx' with rfl | rfl <;> simp

/-- `send` writes the value. -/
theorem Sound.write (h : Sound t s) (htx : s.tx = .write) :
    Sound t { s with value := some t, tx := .complete } := by
  obtain ⟨hsent, -, htaken⟩ := h.cell.unsent_of (.inr htx)
  have hnot := h.not_complete (.inr (.inl htx))
  exact ⟨.written (.inl rfl) hsent rfl htaken, h.panicked,
    fun hcomplete => absurd hcomplete (by simp [hnot]), fun hset => by simp [hsent] at hset, nofun,
    h.consume, h.oks⟩

/-- `send` sets the flag of a channel that was closed. -/
theorem Sound.completeClosed (h : Sound t s) (htx : s.tx = .complete) :
    Sound t { s with state := s.state ||| VALUE_SENT, tx := .consume } := by
  obtain ⟨hsent, hvalue, htaken⟩ := h.cell.written_of (.inl htx)
  exact ⟨.written (.inr rfl) hsent hvalue htaken, h.panicked, fun _ => .inl rfl,
    fun _ => is_complete_or_value_sent _, nofun,
    fun hrx => ⟨is_complete_or_value_sent _, (h.consume hrx).2⟩, h.oks⟩

/-- `send` sets the flag of a channel that was not, and succeeds. -/
theorem Sound.completeOpen (h : Sound t s) (htx : s.tx = .complete)
    (hrx : s.rx_inner = true ∨ s.rx.dropped = true) :
    Sound t { s with
      state := s.state ||| VALUE_SENT, tx := .drop, sent := some (.ok ()) } := by
  obtain ⟨-, hvalue, htaken⟩ := h.cell.written_of (.inl htx)
  exact ⟨.sent (.inl rfl) rfl hvalue htaken hrx, h.panicked, fun _ => .inr (.inr (by simp)),
    fun _ => is_complete_or_value_sent _, nofun,
    fun hrx => ⟨is_complete_or_value_sent _, (h.consume hrx).2⟩, h.oks⟩

/-- `send` takes the value back. -/
theorem Sound.takeBack (h : Sound t s) (htx : s.tx = .consume) :
    Sound t { s with
      value := none, taken := s.taken ++ [(.sender, t)], tx := .drop,
      sent := some (.error t) } := by
  obtain ⟨-, -, htaken⟩ := h.cell.written_of (.inr htx)
  refine ⟨.returned (.inl rfl) rfl rfl (by simp [htaken]), h.panicked,
    fun _ => .inr (.inr (by simp)), fun _ => h.complete (.inl htx), nofun, h.consume,
    fun v hv => ?_⟩
  -- Nobody has taken it before.
  have hnone := h.oks v hv
  rw [htaken] at hnone
  cases hnone

/-- The `Sender` is dropped, which sets the flag if it was not used. -/
theorem Sound.dropTx (h : Sound t s) (htx : s.tx = .drop) {state : BitVec 64}
    (hstate : state = s.state ∨ state = s.state ||| VALUE_SENT) :
    Sound t { s with state, tx := .done } := by
  have hcomplete : is_complete s.state = true → is_complete state = true := by
    rcases hstate with rfl | rfl
    · exact id
    · exact fun _ => is_complete_or_value_sent _
  refine ⟨?_, h.panicked, fun _ => .inr (.inl rfl), fun hset => ?_, nofun,
    fun hrx => ⟨hcomplete (h.consume hrx).1, (h.consume hrx).2⟩, h.oks⟩
  · cases h.cell with
    | unsent _ hsent hvalue htaken => exact .unsent ⟨nofun, nofun⟩ hsent hvalue htaken
    | written htx' => simp [htx] at htx'
    | sent _ hsent hvalue htaken hrx => exact .sent (.inr rfl) hsent hvalue htaken hrx
    | received _ hsent hvalue htaken hrec => exact .received (.inr rfl) hsent hvalue htaken hrec
    | returned _ hsent hvalue htaken => exact .returned (.inr rfl) hsent hvalue htaken
  · exact hcomplete (h.complete (.inr (hset.resolve_left nofun)))

/-- The sending side takes a step, which does not let `send` succeed when the receiver has given up
its handle. -/
theorem Sound.txStep (h : Sound t s) (hord : Orderly s .tx) (hstep : s.txStep t = some s') :
    Sound t s' := by
  unfold Channel.txStep at hstep
  cases htx : s.tx with
  | holding => simp [htx] at hstep
  | done => simp [htx] at hstep
  | write =>
    simp only [htx, Option.some.injEq] at hstep
    subst hstep
    exact h.write htx
  | complete =>
    simp only [htx, Channel.complete] at hstep
    cases hclosed : is_closed s.state with
    | true =>
      simp only [hclosed, Bool.not_true, Option.some.injEq] at hstep
      subst hstep
      exact h.completeClosed htx
    | false =>
      simp only [hclosed, Bool.not_false, Option.some.injEq] at hstep
      subst hstep
      exact h.completeOpen htx (hord htx hclosed)
  | consume =>
    obtain ⟨-, hvalue, -⟩ := h.cell.written_of (.inr htx)
    simp only [htx, Channel.consume_value, hvalue, Option.map_some, Option.some.injEq] at hstep
    subst hstep
    exact h.takeBack htx
  | drop =>
    simp only [htx, Option.some.injEq] at hstep
    subst hstep
    cases hinner : s.tx_inner with
    | true => simpa [hinner, Channel.complete] using h.dropTx htx (.inr rfl)
    | false => simpa [hinner] using h.dropTx htx (.inl rfl)

/-! ## The receiving side keeps it -/

/-- The receiving side goes on without an access to the cell. -/
theorem Sound.goto (h : Sound t s) {rx : RxPc} (hdropped : s.rx.dropped = true → rx.dropped = true)
    (hconsume : rx = .consume → is_complete s.state = true ∧ s.rx_inner = true) :
    Sound t { s with rx } := by
  refine ⟨?_, h.panicked, h.flag, h.complete, h.holding, hconsume, h.oks⟩
  cases h.cell with
  | unsent htx hsent hvalue htaken => exact .unsent htx hsent hvalue htaken
  | written htx hsent hvalue htaken => exact .written htx hsent hvalue htaken
  | sent htx hsent hvalue htaken hrx => exact .sent htx hsent hvalue htaken (hrx.imp id hdropped)
  | received htx hsent hvalue htaken hrec => exact .received htx hsent hvalue htaken hrec
  | returned htx hsent hvalue htaken => exact .returned htx hsent hvalue htaken

/-- `try_recv` returns an error and gives up its handle, when the value is not there for it. -/
theorem Sound.answer (h : Sound t s) (hnot : s.sent = some (.ok ()) → s.value = none)
    (e : String) : Sound t (s.answer (.error e)) := by
  refine ⟨?_, h.panicked, h.flag, h.complete, h.holding, nofun, fun v hv => ?_⟩
  · cases h.cell with
    | unsent htx hsent hvalue htaken => exact .unsent htx hsent hvalue htaken
    | written htx hsent hvalue htaken => exact .written htx hsent hvalue htaken
    | sent _ hsent hvalue =>
      rw [hnot hsent] at hvalue
      cases hvalue
    | received htx hsent hvalue htaken hrec =>
      exact .received htx hsent hvalue htaken (List.mem_append_left _ hrec)
    | returned htx hsent hvalue htaken => exact .returned htx hsent hvalue htaken
  · simp only [Channel.answer, List.mem_append, List.mem_singleton, reduceCtorEq, or_false] at hv
    exact h.oks v hv

/-- `try_recv` takes the value, when `send` is not about to take it back. -/
theorem Sound.take (h : Sound t s) (hrx : s.rx = .consume) (htx : s.tx ≠ .consume) {v : T}
    (hv : s.value = some v) :
    Sound t (Channel.answer { s with
      value := none, taken := s.taken ++ [(.receiver, v)] } (.ok v)) := by
  obtain ⟨hcomplete, -⟩ := h.consume hrx
  -- The flag is set, so `send` has returned.
  obtain ⟨htx', hsent, rfl, htaken⟩ : (s.tx = .drop ∨ s.tx = .done) ∧ s.sent = some (.ok ()) ∧
      t = v ∧ s.taken = [] := by
    cases h.cell with
    | unsent _ _ hvalue => simp [hvalue] at hv
    | written htx' hsent =>
      rcases h.flag hcomplete with htx'' | htx'' | hne
      · exact absurd htx'' htx
      · simp [htx''] at htx'
      · exact absurd hsent hne
    | sent htx' hsent hvalue htaken =>
      exact ⟨htx', hsent, Option.some.inj (hvalue.symm.trans hv), htaken⟩
    | received _ _ hvalue => simp [hvalue] at hv
    | returned _ _ hvalue => simp [hvalue] at hv
  refine ⟨.received htx' hsent rfl (by simp [Channel.answer, htaken]) (by simp [Channel.answer]),
    h.panicked, h.flag, h.complete, h.holding, nofun, fun w hw => ?_⟩
  simp only [Channel.answer, List.mem_append, List.mem_singleton, Except.ok.injEq] at hw
  rcases hw with hw | rfl
  · have hnone := h.oks w hw
    rw [htaken] at hnone
    cases hnone
  · simp [Channel.answer, htaken]

/-- The channel is closed. -/
theorem Sound.close (h : Sound t s) : Sound t s.close := by
  refine ⟨?_, h.panicked, ?_, ?_, h.holding, ?_, h.oks⟩
  · cases h.cell with
    | unsent htx hsent hvalue htaken => exact .unsent htx hsent hvalue htaken
    | written htx hsent hvalue htaken => exact .written htx hsent hvalue htaken
    | sent htx hsent hvalue htaken hrx => exact .sent htx hsent hvalue htaken hrx
    | received htx hsent hvalue htaken hrec => exact .received htx hsent hvalue htaken hrec
    | returned htx hsent hvalue htaken => exact .returned htx hsent hvalue htaken
  · simpa only [Channel.close, is_complete_or_closed] using h.flag
  · simpa only [Channel.close, is_complete_or_closed] using h.complete
  · simpa only [Channel.close, is_complete_or_closed] using h.consume

/-- The receiving side takes a step, which does not take the value that `send` is about to take
back. -/
theorem Sound.rxStep (h : Sound t s) (hord : Orderly s .rx) (hstep : s.rxStep = some s') :
    Sound t s' := by
  unfold Channel.rxStep at hstep
  cases hrx : s.rx with
  | idle => simp [hrx] at hstep
  | done => simp [hrx] at hstep
  | poll =>
    simp only [hrx] at hstep
    -- A value that is there for the receiver is seen.
    have hnot : s.rx_inner = false ∨ is_complete s.state = false → s.sent = some (.ok ()) →
        s.value = none := by
      intro hmiss hok
      cases h.cell with
      | unsent _ _ hvalue | received _ _ hvalue | returned _ _ hvalue => exact hvalue
      | written _ hsent => simp [hok] at hsent
      | sent _ _ _ _ hthere =>
        have hcomplete := h.complete (.inr (by simp [hok]))
        simp [hrx, hcomplete, RxPc.dropped] at hmiss hthere
        simp [hmiss] at hthere
    split_ifs at hstep with hinner hcomplete hclosed
    · obtain rfl := Option.some.inj hstep
      exact h.answer (hnot (.inl hinner)) _
    · obtain rfl := Option.some.inj hstep
      exact h.goto (by simp [hrx, RxPc.dropped]) fun _ => ⟨hcomplete, by simpa using hinner⟩
    · obtain rfl := Option.some.inj hstep
      exact h.answer (hnot (.inr (by simpa using hcomplete))) _
    · obtain rfl := Option.some.inj hstep
      exact h.answer (hnot (.inr (by simpa using hcomplete))) _
  | consume =>
    simp only [hrx, Channel.consume_value] at hstep
    cases hvalue : s.value with
    | none =>
      simp only [hvalue, Option.map_none, Option.some.injEq] at hstep
      subst hstep
      exact h.answer (fun _ => hvalue) _
    | some v =>
      simp only [hvalue, Option.map_some, Option.some.injEq] at hstep
      subst hstep
      exact h.take hrx (hord hrx) hvalue
  | drop =>
    simp only [hrx, Option.some.injEq] at hstep
    subst hstep
    cases hinner : s.rx_inner with
    | true => exact h.close.goto (fun _ => rfl) nofun
    | false => exact h.goto (fun _ => rfl) nofun

/-! ## The runs -/

/-- A step of an orderly run keeps the invariant. -/
theorem Sound.step {a : Action} (h : Sound t s) (hord : Orderly s a)
    (hstep : step t s a = some s') : Sound t s' := by
  cases a with
  | send =>
    simp only [Oneshot.step] at hstep
    split_ifs at hstep with htx hinner
    · obtain rfl := Option.some.inj hstep
      exact h.leave htx (.inl rfl)
    · exact absurd (h.holding htx) hinner
  | drop_tx =>
    simp only [Oneshot.step] at hstep
    split_ifs at hstep with htx
    obtain rfl := Option.some.inj hstep
    exact h.leave htx (.inr rfl)
  | tx => exact h.txStep hord hstep
  | try_recv =>
    simp only [Oneshot.step] at hstep
    split_ifs at hstep with hrx
    obtain rfl := Option.some.inj hstep
    exact h.goto (by simp [hrx, RxPc.dropped]) nofun
  | drop_rx =>
    simp only [Oneshot.step] at hstep
    split_ifs at hstep with hrx
    obtain rfl := Option.some.inj hstep
    exact h.goto (fun _ => rfl) nofun
  | rx => exact h.rxStep hord hstep
  | close =>
    obtain rfl := Option.some.inj hstep
    exact h.close

/-- The value is handed over once in every run in which `try_recv` does not take it while `send` is
about to take it back, and in which the receiver has not given up its handle, unless it is dropped,
when `send` sets the flag of an open channel. -/
theorem handed_over (t : T) {as : List Action} {s : Channel T}
    (h : Run (fun s a s' => Oneshot.step t s a = some s' ∧ Orderly s a) channel as s) :
    HandedOver t s :=
  (h.invariant (fun _ _ _ hs hstep => hs.step hstep.2 hstep.1) (sound_channel t)).handedOver

/-- The value is sent and then received. -/
def handOverRun : List Action := [.send, .tx, .tx, .tx, .try_recv, .rx, .rx, .drop_rx, .rx]

/-- The value of `handOverRun` is handed over. -/
theorem handed_over_handOverRun : ∃ s : Channel ℕ,
    Run (fun s a s' => Oneshot.step 3 s a = some s' ∧ Orderly s a) channel handOverRun s ∧
      s.received = [.ok 3] ∧ HandedOver 3 s := by
  obtain ⟨s, hs, hreceived⟩ : ∃ s : Channel ℕ,
      Run (fun s a s' => Oneshot.step 3 s a = some s' ∧ Orderly s a) channel handOverRun s ∧
        s.received = [.ok 3] := ⟨_, run_guarded_iff.mpr rfl, rfl⟩
  exact ⟨s, hs, hreceived, handed_over 3 hs⟩

/-- What `main` does: the channel is closed before its sides are used, and `try_recv` takes the
value while `send` sleeps. -/
def panicRun : List Action := [.close, .send, .tx, .tx, .try_recv, .rx, .rx, .tx]

/-- `try_recv` looks before the value is sent. -/
def strandRun : List Action := [.try_recv, .rx, .send, .tx, .tx]

/-- The `unwrap` in `send` panics in `panicRun`, and in `strandRun` `send` has succeeded and nobody
can get the value. -/
theorem hand_over_fails :
    (∃ s : Channel ℕ, Run (ofFunction (Oneshot.step 3)) channel panicRun s ∧
      s.panicked = true ∧ ¬ HandedOver 3 s) ∧
    ∃ s : Channel ℕ, Run (ofFunction (Oneshot.step 3)) channel strandRun s ∧
      s.sent = some (.ok ()) ∧ s.rx_inner = false ∧ ¬ HandedOver 3 s := by
  constructor
  · obtain ⟨s, hs, hpanic⟩ : ∃ s : Channel ℕ,
        Run (ofFunction (Oneshot.step 3)) channel panicRun s ∧ s.panicked = true :=
      ⟨_, run_function_iff.mpr rfl, rfl⟩
    exact ⟨s, hs, hpanic, fun h => by simp [h.panicked] at hpanic⟩
  · obtain ⟨s, hs, hsent, hinner, hrx, hreceived⟩ : ∃ s : Channel ℕ,
        Run (ofFunction (Oneshot.step 3)) channel strandRun s ∧ s.sent = some (.ok ()) ∧
          s.rx_inner = false ∧ s.rx.dropped = false ∧
          s.received = [.error "not complete not closed"] :=
      ⟨_, run_function_iff.mpr rfl, rfl, rfl, rfl, rfl⟩
    refine ⟨s, hs, hsent, hinner, fun h => ?_⟩
    rcases h.ok hsent with hok | hdropped | ⟨-, hinner', -⟩
    · simp [hreceived] at hok
    · simp [hrx] at hdropped
    · simp [hinner] at hinner'

end Oneshot

end AtomicityViolation
