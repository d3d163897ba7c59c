import AtomicityViolation.Library.Run
import AtomicityViolation.Subjects.Peers

/-!
# Peers are closed once

A peer is in the vector before it is started, and a loop that comes to it in between panics
(`close_peers_panics`). If none does, no loop panics, and when no call is in progress each peer that
was started is in the vector or was sent one message to close (`peers_kept`). The invariant says
which thread still has to start a peer that is not started, and that a peer was sent no message to
close as long as it is held, by the vector or by the loop that drains it, and one from then on.
-/

namespace AtomicityViolation

namespace Peers

open Transition (Run ofFunction run_function_iff run_guarded_iff)

/-! ## Peers that were started -/

/-- The peer was started: it has its channels, and its polling thread leaves the loop with the
first message to close. -/
def Peer.Working (P : Peer) : Prop :=
  ∃ queue c, P.send_channel = some queue ∧ P.close_channel = some c ∧ P.poll ≠ .absent ∧
    c.sent = c.waiting + if P.poll = .leaving ∨ P.poll = .gone then 1 else 0

/-- A peer that was started was sent no message to close. -/
theorem Peer.working_start (P : Peer) : P.start.Working ∧ P.start.closes = 0 :=
  ⟨⟨[], ⟨0, 0⟩, rfl, rfl, by simp [Peer.start, listen], rfl⟩, rfl⟩

/-- A value can be sent to it. -/
theorem Peer.Working.send {P : Peer} (h : P.Working) (val : UInt32) :
    ∃ r P', P.send val = some (r, P') ∧ P'.Working ∧ P'.closes = P.closes := by
  obtain ⟨queue, c, hqueue, hc, hpoll, hsent⟩ := h
  unfold Peer.send
  simp only [hqueue]
  split_ifs
  · exact ⟨_, _, rfl, ⟨queue, c, hqueue, hc, hpoll, hsent⟩, rfl⟩
  · exact ⟨_, _, rfl, ⟨queue ++ [val], c, rfl, hc, hpoll, hsent⟩, rfl⟩
  · exact ⟨_, _, rfl, ⟨queue, c, hqueue, hc, hpoll, hsent⟩, rfl⟩

/-- If it was sent no message to close, its polling thread still waits for one. -/
theorem Peer.Working.close {P : Peer} (h : P.Working) (hnone : P.closes = 0) :
    ∃ r P', P.close = some (r, P') ∧ P'.Working ∧ P'.closes = 1 := by
  obtain ⟨queue, c, hqueue, hc, hpoll, hsent⟩ := h
  have hzero : c.sent = 0 := by simpa [Peer.closes, hc] using hnone
  have hlive : ¬ (P.poll = .leaving ∨ P.poll = .gone) := by
    intro hend
    rw [if_pos hend] at hsent
    omega
  rw [if_neg hlive] at hsent
  unfold Peer.close
  simp only [hc, if_neg fun hgone => hlive (.inr hgone)]
  refine ⟨_, _, rfl, ⟨queue, ⟨c.waiting + 1, c.sent + 1⟩, hqueue, rfl, hpoll, ?_⟩, ?_⟩
  · simp only [if_neg hlive]
    omega
  · simp [Peer.closes, hzero]

/-- Its polling thread goes on. -/
theorem Peer.Working.polled {P P' : Peer} (h : P.Working) (hP' : P.polled = some P') :
    P'.Working ∧ P'.closes = P.closes := by
  obtain ⟨queue, c, hqueue, hc, hpoll, hsent⟩ := h
  unfold Peer.polled at hP'
  cases hcase : P.poll with
  | absent => exact absurd hcase hpoll
  | gone => simp [hcase] at hP'
  | send =>
    simp only [hcase, Option.some.injEq] at hP'
    subst hP'
    exact ⟨⟨queue.tail, c, by simp [hqueue], hc, by simp, by simpa [hcase] using hsent⟩, rfl⟩
  | leaving =>
    simp only [hcase, Option.some.injEq] at hP'
    subst hP'
    exact ⟨⟨queue, c, hqueue, hc, by simp, by simpa [hcase] using hsent⟩, rfl⟩
  | close =>
    obtain ⟨waiting, sent⟩ := c
    cases waiting with
    | zero =>
      simp only [hcase, hc, Option.some.injEq] at hP'
      subst hP'
      exact ⟨⟨queue, ⟨0, sent⟩, hqueue, rfl, by simp, by simpa [hcase] using hsent⟩, by
        simp [Peer.closes, hc]⟩
    | succ waiting =>
      simp only [hcase, hc, Option.some.injEq] at hP'
      subst hP'
      exact ⟨⟨queue, _, hqueue, rfl, by simp, by simpa [hcase] using hsent⟩, by
        simp [Peer.closes, hc]⟩

/-- A polling thread that was sent a message to close looks at it or has done so. -/
theorem Peer.Working.ending {P : Peer} (h : P.Working) (hone : P.closes = 1) : P.Ending := by
  obtain ⟨queue, c, -, hc, -, hsent⟩ := h
  have hsent' : c.sent = 1 := by simpa [Peer.closes, hc] using hone
  by_cases hend : P.poll = .leaving ∨ P.poll = .gone
  · exact hend.elim .inl fun hgone => .inr (.inl hgone)
  · rw [if_neg hend] at hsent
    exact .inr (.inr ⟨c, hc, by omega⟩)

/-! ## The invariant -/

/-- The thread goes through the vector, holding its lock. -/
def Pc.locked : Pc → Bool
  | .sending .. | .closing _ => true
  | _ => false

/-- The peers that a `close_peers` has drained and not come to. -/
def Pc.draining : Pc → List ℕ
  | .closing rest => rest
  | _ => []

/-- The peers that a `broadcast` has not come to. -/
def Pc.sendingTo : Pc → List ℕ
  | .sending _ rest => rest
  | _ => []

/-- The peer that an `add_peer` still has to start. -/
def Pc.starting : Pc → Option ℕ
  | .start i => some i
  | _ => none

variable {T : Type*}

/-- A peer is in the vector or among those that are drained. -/
def State.Held (s : State T) (i : ℕ) : Prop := i ∈ s.peers ∨ ∃ t, i ∈ (s.pc t).draining

/-- The lock of the vector. -/
structure Locked (s : State T) : Prop where
  /-- It is held by the thread that goes through the vector. -/
  owner : ∀ t, (s.pc t).locked = true ↔ s.owner = some t
  /-- No thread has panicked with it. -/
  poisoned : s.poisoned = false
  /-- No thread has panicked. -/
  panicked : ∀ t, s.pc t ≠ .panicked

/-- The peers that were started and those that are still to be. -/
structure Starting (s : State T) : Prop where
  /-- One that is to be started has no channels. -/
  new : ∀ t i, (s.pc t).starting = some i → s.made[i]? = some .new
  /-- One thread starts it. -/
  one : ∀ t u i, (s.pc t).starting = some i → (s.pc u).starting = some i → t = u
  /-- The others were started. -/
  made : ∀ i P, s.made[i]? = some P → (∃ t, (s.pc t).starting = some i) ∨ P.Working

/-- Where the peers are, and which were closed. -/
structure Listed (s : State T) : Prop where
  /-- They are peers that were made. -/
  held_lt : ∀ i, s.Held i → i < s.made.length
  /-- So are those that a `broadcast` goes through. -/
  sendingTo_lt : ∀ t, ∀ i ∈ (s.pc t).sendingTo, i < s.made.length
  /-- None is twice in the vector. -/
  nodup : s.peers.Nodup
  /-- None is drained twice. -/
  draining : ∀ t, (s.pc t).draining.Nodup
  /-- The vector is empty while it is drained. -/
  empty : ∀ t, (s.pc t).draining ≠ [] → s.peers = []
  /-- A peer was sent a message to close when it was let go. -/
  closes : ∀ i P, s.made[i]? = some P → s.Held i ∧ P.closes = 0 ∨ ¬ s.Held i ∧ P.closes = 1

/-- What holds in every state of a run in which no loop comes to a peer before its start. -/
structure Sound (s : State T) : Prop where
  locked : Locked s
  starting : Starting s
  listed : Listed s

/-- In the beginning there are no peers. -/
theorem sound_new : Sound (new : State T) where
  locked := ⟨fun t => ⟨nofun, nofun⟩, rfl, nofun⟩
  starting := ⟨nofun, nofun, nofun⟩
  listed := by
    have hheld : ∀ i, ¬ (new : State T).Held i := by
      rintro i (hi | ⟨t, hi⟩) <;> cases hi
    exact ⟨fun i hi => absurd hi (hheld i), nofun, List.nodup_nil, fun _ => List.nodup_nil,
      fun _ _ => rfl, nofun⟩

/-- What the invariant says of the peers. -/
theorem Sound.kept {s : State T} (h : Sound s) : Kept s where
  panicked := h.locked.panicked
  poisoned := h.locked.poisoned
  closed := by
    intro hidle i P hP _
    have hheld : s.Held i ↔ i ∈ s.peers :=
      ⟨fun hi => hi.elim id fun ⟨t, ht⟩ => by simp [hidle t, Pc.draining] at ht, .inl⟩
    rw [← hheld]
    exact h.listed.closes i P hP
  stoppable := by
    intro hidle i P hP hpoll
    rcases h.listed.closes i P hP with ⟨hi | ⟨t, ht⟩, -⟩ | ⟨-, hone⟩
    · exact .inl hi
    · simp [hidle t, Pc.draining] at ht
    · -- No thread still has to start it.
      rcases h.starting.made i P hP with ⟨t, ht⟩ | hworking
      · simp [hidle t, Pc.starting] at ht
      · exact .inr (hworking.ending hone)

/-! ## What steps leave as it is -/

variable {s s' : State T} {t : T} {pc : Pc}

/-- The peers that are started and the others stay so. -/
theorem Starting.keep (h : Starting s) (hproj : ∀ u, (s'.pc u).starting = (s.pc u).starting)
    (hmade : ∀ i : ℕ, s'.made[i]? = s.made[i]? ∨
      ∃ P P' : Peer, s.made[i]? = some P ∧ P.Working ∧ s'.made[i]? = some P' ∧ P'.Working) :
    Starting s' where
  new := by
    intro u i hu
    rw [hproj] at hu
    have hnew := h.new u i hu
    rcases hmade i with hsame | ⟨P, P', hP, hworking, -⟩
    · rw [hsame, hnew]
    · -- A peer without channels was not started.
      obtain rfl : P = .new := Option.some.inj (hP.symm.trans hnew)
      obtain ⟨queue, c, hqueue, -⟩ := hworking
      cases hqueue
  one := by
    intro u v i hu hv
    rw [hproj] at hu hv
    exact h.one u v i hu hv
  made := by
    intro i P' hP'
    rcases hmade i with hsame | ⟨P, Q, -, -, hQ, hworking⟩
    · rw [hsame] at hP'
      exact (h.made i P' hP').imp (fun ⟨u, hu⟩ => ⟨u, (hproj u).trans hu⟩) id
    · obtain rfl := Option.some.inj (hQ.symm.trans hP')
      exact .inr hworking

/-- The peers stay where they are, and closed or not. -/
theorem Listed.keep (h : Listed s) (hpeers : s'.peers = s.peers)
    (hdraining : ∀ u, (s'.pc u).draining = (s.pc u).draining)
    (hlen : s'.made.length = s.made.length)
    (hmade : ∀ (i : ℕ) (P' : Peer), s'.made[i]? = some P' →
      ∃ P, s.made[i]? = some P ∧ P'.closes = P.closes)
    (hsend : ∀ u, ∀ i ∈ (s'.pc u).sendingTo, i ∈ (s.pc u).sendingTo ∨ s.Held i) : Listed s' := by
  have hheld : ∀ i, s'.Held i ↔ s.Held i := fun i => by
    simp only [State.Held, hpeers, hdraining]
  refine ⟨fun i hi => ?_, fun u i hi => ?_, ?_, fun u => ?_, fun u hu => ?_, fun i P' hP' => ?_⟩
  · rw [hlen]
    exact h.held_lt i ((hheld i).mp hi)
  · rw [hlen]
    exact (hsend u i hi).elim (h.sendingTo_lt u i) (h.held_lt i)
  · rw [hpeers]
    exact h.nodup
  · rw [hdraining]
    exact h.draining u
  · rw [hdraining] at hu
    rw [hpeers]
    exact h.empty u hu
  · obtain ⟨P, hP, hcloses⟩ := hmade i P' hP'
    rw [hheld, hcloses]
    exact h.closes i P hP

/-- Only threads that hold the lock drain the vector. -/
theorem locked_of_draining {pc : Pc} {i : ℕ} (h : i ∈ pc.draining) : pc.locked = true := by
  cases pc <;> simp_all [Pc.draining, Pc.locked]

/-- One thread holds the lock. -/
theorem Locked.unique (h : Locked s) {u : T} (ht : (s.pc t).locked = true)
    (hu : (s.pc u).locked = true) : u = t := by
  rw [h.owner] at ht hu
  exact Option.some.inj (hu.symm.trans ht)

/-- While no thread holds the lock the vector is not drained. -/
theorem Locked.not_draining (h : Locked s) (hfree : s.owner = none) (u : T) :
    (s.pc u).draining = [] := by
  refine List.eq_nil_iff_forall_not_mem.mpr fun i hi => ?_
  have howner := (h.owner u).mp (locked_of_draining hi)
  rw [hfree] at howner
  cases howner

/-- A change of one peer. -/
theorem getElem?_set_cases {made : List Peer} {i j : ℕ} {P Q : Peer}
    (h : (made.set i P)[j]? = some Q) : j = i ∧ Q = P ∨ j ≠ i ∧ made[j]? = some Q := by
  rw [List.getElem?_set] at h
  split_ifs at h with hij hlt
  · exact .inl ⟨hij.symm, (Option.some.inj h).symm⟩
  · exact .inr ⟨Ne.symm hij, h⟩

/-- A change of a peer that was started leaves it started. -/
theorem made_set {i : ℕ} {P P' : Peer} (hP : s.made[i]? = some P) (hworking : P.Working)
    (hworking' : P'.Working) (j : ℕ) : (s.made.set i P')[j]? = s.made[j]? ∨
      ∃ Q Q', s.made[j]? = some Q ∧ Q.Working ∧ (s.made.set i P')[j]? = some Q' ∧ Q'.Working := by
  by_cases hij : i = j
  · subst hij
    have hlt := (List.getElem?_eq_some_iff.mp hP).1
    exact .inr ⟨P, P', hP, hworking, List.getElem?_set_self hlt, hworking'⟩
  · exact .inl (List.getElem?_set_ne hij)

/-- A change of a peer leaves it closed or not. -/
theorem closes_set {i : ℕ} {P P' : Peer} (hP : s.made[i]? = some P) (hcloses : P'.closes = P.closes)
    (j : ℕ) (Q' : Peer) (hQ' : (s.made.set i P')[j]? = some Q') :
    ∃ Q, s.made[j]? = some Q ∧ Q'.closes = Q.closes := by
  rcases getElem?_set_cases hQ' with ⟨rfl, rfl⟩ | ⟨-, hQ⟩
  · exact ⟨P, hP, hcloses⟩
  · exact ⟨Q', hQ, rfl⟩

/-- A polling thread takes a step. -/
theorem Sound.poll (h : Sound s) {i : ℕ} {P P' : Peer} (hP : s.made[i]? = some P)
    (hP' : P.polled = some P') : Sound { s with made := s.made.set i P' } := by
  -- Only a peer that was started has one.
  have hworking : P.Working := by
    rcases h.starting.made i P hP with ⟨t, ht⟩ | hworking
    · obtain rfl : P = .new := Option.some.inj (hP.symm.trans (h.starting.new t i ht))
      cases hP'
    · exact hworking
  obtain ⟨hworking', hcloses⟩ := hworking.polled hP'
  exact ⟨⟨h.locked.owner, h.locked.poisoned, h.locked.panicked⟩,
    h.starting.keep (fun _ => rfl) (made_set hP hworking hworking'),
    h.listed.keep rfl (fun _ => rfl) (List.length_set ..) (closes_set hP hcloses)
      fun _ _ hj => .inl hj⟩

/-- A peer that a loop comes to was started if no thread still has to start it. -/
theorem Sound.working (h : Sound s) {i : ℕ} (hlt : i < s.made.length)
    (hstarted : ∀ u, s.pc u ≠ .start i) : ∃ P, s.made[i]? = some P ∧ P.Working := by
  refine ⟨_, List.getElem?_eq_getElem hlt, ?_⟩
  rcases h.starting.made i _ (List.getElem?_eq_getElem hlt) with ⟨u, hu⟩ | hworking
  · refine absurd ?_ (hstarted u)
    cases hpc : s.pc u <;> simp_all [Pc.starting]
  · exact hworking

variable [DecidableEq T]

/-- What is read of the places of the threads stays when a thread goes on to a place that reads the
same. -/
theorem read_goto {β : Type*} (f : Pc → β) (h : f pc = f (s.pc t)) (u : T) :
    f (Function.update s.pc t pc u) = f (s.pc u) := by
  by_cases hu : u = t
  · rw [hu, Function.update_self, h]
  · rw [Function.update_of_ne hu]

/-- The lock stays when a thread goes on. -/
theorem Locked.goto (h : Locked s) (hlock : pc.locked = (s.pc t).locked) (hpc : pc ≠ .panicked) :
    Locked (s.goto t pc) where
  owner := fun u => by
    rw [State.goto, read_goto Pc.locked hlock]
    exact h.owner u
  poisoned := h.poisoned
  panicked := fun u => by
    by_cases hu : u = t
    · simp [State.goto, hu, hpc]
    · simpa [State.goto, hu] using h.panicked u

/-- A thread takes the lock. -/
theorem Locked.acquire (h : Locked s) (hfree : s.owner = none) (hlock : pc.locked = true) :
    Locked { s.goto t pc with owner := some t } where
  owner := fun u => by
    by_cases hu : u = t
    · simp [State.goto, hu, hlock]
    · have hnot := h.owner u
      rw [hfree] at hnot
      simpa [State.goto, hu, Ne.symm hu] using hnot
  poisoned := h.poisoned
  panicked := fun u => by
    by_cases hu : u = t
    · have hpc : pc ≠ .panicked := by
        rintro rfl
        cases hlock
      simp [State.goto, hu, hpc]
    · simpa [State.goto, hu] using h.panicked u

/-- A thread leaves the lock. -/
theorem Locked.release (h : Locked s) (ht : (s.pc t).locked = true) :
    Locked { s.goto t .idle with owner := none } where
  owner := fun u => by
    by_cases hu : u = t
    · simp [State.goto, hu, Pc.locked]
    · have hnot : (s.pc u).locked ≠ true := fun hu' => hu (h.unique ht hu')
      simpa [State.goto, hu] using hnot
  poisoned := h.poisoned
  panicked := fun u => by
    by_cases hu : u = t
    · simp [State.goto, hu]
    · simpa [State.goto, hu] using h.panicked u

/-! ## Every step keeps the invariant -/

/-- A thread calls an operation. -/
theorem Sound.call (h : Sound s) (hidle : s.pc t = .idle) (hlock : pc.locked = false)
    (hpc : pc ≠ .panicked) (hstarting : pc.starting = none) (hdraining : pc.draining = [])
    (hsending : pc.sendingTo = []) : Sound (s.goto t pc) where
  locked := h.locked.goto (by rw [hlock, hidle]; rfl) hpc
  starting := h.starting.keep (read_goto Pc.starting (by rw [hstarting, hidle]; rfl))
    fun _ => .inl rfl
  listed := h.listed.keep rfl (read_goto Pc.draining (by rw [hdraining, hidle]; rfl)) rfl
    (fun _ P hP => ⟨P, hP, rfl⟩) fun u i hi => by
      have hsame : (Function.update s.pc t pc u).sendingTo = (s.pc u).sendingTo :=
        read_goto Pc.sendingTo (by rw [hsending, hidle]; rfl) u
      exact .inl (hsame ▸ hi)

/-- What is in the list of all peers when one more was made. -/
theorem getElem?_concat_cases {made : List Peer} {i : ℕ} {P Q : Peer}
    (h : (made ++ [Q])[i]? = some P) :
    i < made.length ∧ made[i]? = some P ∨ i = made.length ∧ P = Q := by
  rcases lt_trichotomy i made.length with hlt | rfl | hlt
  · rw [List.getElem?_append_left hlt] at h
    exact .inl ⟨hlt, h⟩
  · rw [List.getElem?_append_right le_rfl, Nat.sub_self] at h
    exact .inr ⟨rfl, (Option.some.inj h).symm⟩
  · rw [List.getElem?_eq_none (by simpa using Nat.succ_le_of_lt hlt)] at h
    cases h

/-- The new peer is to be started by the thread that has made it. -/
theorem Starting.publish (h : Starting s) (hpc : s.pc t = .publish) :
    Starting { s.goto t (.start s.made.length) with
      made := s.made ++ [Peer.new], peers := s.peers ++ [s.made.length] } := by
  -- The position of the new peer is that of no other one.
  have hold : ∀ u i, (s.pc u).starting = some i → i < s.made.length := fun u i hu =>
    (List.getElem?_eq_some_iff.mp (h.new u i hu)).1
  have hread : ∀ u i, (Function.update s.pc t (.start s.made.length) u).starting = some i →
      u = t ∧ i = s.made.length ∨ u ≠ t ∧ (s.pc u).starting = some i := by
    intro u i hu
    by_cases hut : u = t
    · subst hut
      rw [Function.update_self] at hu
      exact .inl ⟨rfl, (Option.some.inj hu).symm⟩
    · rw [Function.update_of_ne hut] at hu
      exact .inr ⟨hut, hu⟩
  refine ⟨fun u i hu => ?_, fun u v i hu hv => ?_, fun i P hP => ?_⟩
  · rcases hread u i hu with ⟨-, rfl⟩ | ⟨-, hu⟩
    · simp
    · exact (List.getElem?_append_left (hold u i hu)).trans (h.new u i hu)
  · rcases hread u i hu with ⟨rfl, rfl⟩ | ⟨-, hu⟩
    · rcases hread v _ hv with ⟨rfl, -⟩ | ⟨-, hv⟩
      · rfl
      · exact absurd (hold v _ hv) (lt_irrefl _)
    · rcases hread v i hv with ⟨-, rfl⟩ | ⟨-, hv⟩
      · exact absurd (hold u _ hu) (lt_irrefl _)
      · exact h.one u v i hu hv
  · rcases getElem?_concat_cases hP with ⟨-, hP⟩ | ⟨rfl, -⟩
    · refine (h.made i P hP).imp ?_ id
      rintro ⟨u, hu⟩
      have hut : u ≠ t := by
        rintro rfl
        rw [hpc] at hu
        cases hu
      exact ⟨u, by simpa [State.goto, hut] using hu⟩
    · exact .inl ⟨t, by simp [State.goto, Pc.starting]⟩

/-- The new peer is in the vector. -/
theorem Listed.publish (h : Listed s) (hpc : s.pc t = .publish)
    (hnone : ∀ u, (s.pc u).draining = []) :
    Listed { s.goto t (.start s.made.length) with
      made := s.made ++ [Peer.new], peers := s.peers ++ [s.made.length] } := by
  have hdraining : ∀ u, (Function.update s.pc t (.start s.made.length) u).draining = [] :=
    fun u => (read_goto Pc.draining (by rw [hpc]; rfl) u).trans (hnone u)
  have hsending : ∀ u, (Function.update s.pc t (.start s.made.length) u).sendingTo =
      (s.pc u).sendingTo := read_goto Pc.sendingTo (by rw [hpc]; rfl)
  have hheld : ∀ i, State.Held { s.goto t (.start s.made.length) with
      made := s.made ++ [Peer.new], peers := s.peers ++ [s.made.length] } i ↔
        s.Held i ∨ i = s.made.length := fun i => by
    simp [State.Held, State.goto, hdraining, hnone]
  refine ⟨fun i hi => ?_, fun u i hi => ?_, ?_, fun u => ?_, fun u hu => absurd (hdraining u) hu,
    fun i P hP => ?_⟩
  · rw [List.length_append]
    rcases (hheld i).mp hi with hi | rfl
    · exact Nat.lt_add_right _ (h.held_lt i hi)
    · exact Nat.lt_add_one _
  · rw [List.length_append]
    exact Nat.lt_add_right _ (h.sendingTo_lt u i (hsending u ▸ hi))
  · refine List.nodup_append.mpr ⟨h.nodup, by simp, fun i hi j hj => ?_⟩
    rw [List.mem_singleton.mp hj]
    exact (h.held_lt i (.inl hi)).ne
  · exact (hdraining u).symm ▸ List.nodup_nil
  · rw [hheld]
    rcases getElem?_concat_cases hP with ⟨hlt, hP⟩ | ⟨rfl, rfl⟩
    · rcases h.closes i P hP with ⟨hi, hcloses⟩ | ⟨hi, hcloses⟩
      · exact .inl ⟨.inl hi, hcloses⟩
      · exact .inr ⟨by simpa [hi] using hlt.ne, hcloses⟩
    · exact .inl ⟨.inr rfl, rfl⟩

/-- The first section of `add_peer`. -/
theorem Sound.publish (h : Sound s) (hpc : s.pc t = .publish) (hfree : s.owner = none) :
    Sound { s.goto t (.start s.made.length) with
      made := s.made ++ [Peer.new], peers := s.peers ++ [s.made.length] } := by
  have hlock := @Locked.goto T s t (.start s.made.length) _ h.locked (by rw [hpc]; rfl) (by simp)
  exact ⟨⟨hlock.owner, hlock.poisoned, hlock.panicked⟩, h.starting.publish hpc,
    h.listed.publish hpc (h.locked.not_draining hfree)⟩

/-- The second section of `add_peer`. -/
theorem Sound.start (h : Sound s) {i : ℕ} (hpc : s.pc t = .start i) {P : Peer}
    (hP : s.made[i]? = some P) : Sound { s.goto t .idle with made := s.made.set i P.start } := by
  have hlock := @Locked.goto T s t .idle _ h.locked (by rw [hpc]; rfl) (by simp)
  have ht : (s.pc t).starting = some i := by rw [hpc]; rfl
  obtain rfl : P = .new := Option.some.inj (hP.symm.trans (h.starting.new t i ht))
  obtain ⟨hworking, hcloses⟩ := Peer.working_start .new
  -- The other threads start other peers.
  have hother : ∀ u j, (Function.update s.pc t .idle u).starting = some j →
      j ≠ i ∧ (s.pc u).starting = some j := by
    intro u j hu
    by_cases hut : u = t
    · subst hut
      rw [Function.update_self] at hu
      cases hu
    · rw [Function.update_of_ne hut] at hu
      refine ⟨?_, hu⟩
      rintro rfl
      exact hut (h.starting.one u t j hu ht)
  refine ⟨⟨hlock.owner, hlock.poisoned, hlock.panicked⟩, ⟨?_, ?_, ?_⟩,
    h.listed.keep rfl (read_goto Pc.draining (by rw [hpc]; rfl)) (List.length_set ..)
      (closes_set hP hcloses) fun u j hj => ?_⟩
  · intro u j hu
    obtain ⟨hji, hu⟩ := hother u j hu
    exact (List.getElem?_set_ne (Ne.symm hji)).trans (h.starting.new u j hu)
  · intro u v j hu hv
    exact h.starting.one u v j (hother u j hu).2 (hother v j hv).2
  · intro j Q hQ
    rcases getElem?_set_cases hQ with ⟨rfl, rfl⟩ | ⟨hji, hQ⟩
    · exact .inr hworking
    · refine (h.starting.made j Q hQ).imp ?_ id
      rintro ⟨u, hu⟩
      have hut : u ≠ t := by
        rintro rfl
        exact hji (Option.some.inj (hu.symm.trans ht))
      exact ⟨u, by simpa [State.goto, hut] using hu⟩
  · have hsame : (Function.update s.pc t .idle u).sendingTo = (s.pc u).sendingTo :=
      read_goto Pc.sendingTo (by rw [hpc]; rfl) u
    exact .inl (hsame ▸ hj)

/-- `broadcast` takes the lock. -/
theorem Sound.broadcast (h : Sound s) {val : UInt32} (hpc : s.pc t = .broadcast val)
    (hfree : s.owner = none) :
    Sound { s.goto t (.sending val s.peers) with owner := some t } where
  locked := h.locked.acquire hfree rfl
  starting := h.starting.keep (read_goto Pc.starting (by rw [hpc]; rfl)) fun _ => .inl rfl
  listed := h.listed.keep rfl (read_goto Pc.draining (by rw [hpc]; rfl)) rfl
    (fun _ P hP => ⟨P, hP, rfl⟩) fun u i hi => by
      by_cases hu : u = t
      · subst hu
        exact .inr (.inl (by simpa [State.goto, Pc.sendingTo] using hi))
      · exact .inl (by simpa [State.goto, hu] using hi)

/-- `close_peers` takes the lock and drains the vector: the peers are held by its loop then. -/
theorem Sound.close (h : Sound s) (hpc : s.pc t = .close) (hfree : s.owner = none) :
    Sound { s.goto t (.closing s.peers) with owner := some t, peers := [] } := by
  have hlock : Locked { s.goto t (.closing s.peers) with owner := some t } :=
    h.locked.acquire hfree rfl
  have hnone := h.locked.not_draining hfree
  have hdraining : ∀ u, u = t ∧ (Function.update s.pc t (.closing s.peers) u).draining = s.peers ∨
      u ≠ t ∧ (Function.update s.pc t (.closing s.peers) u).draining = [] := by
    intro u
    by_cases hu : u = t
    · subst hu
      exact .inl ⟨rfl, by rw [Function.update_self]; rfl⟩
    · exact .inr ⟨hu, by rw [Function.update_of_ne hu, hnone]⟩
  have hheld : ∀ i, State.Held { s.goto t (.closing s.peers) with
      owner := some t, peers := [] } i ↔ s.Held i := by
    intro i
    constructor
    · rintro (hi | ⟨u, hi⟩)
      · cases hi
      · change i ∈ (Function.update s.pc t (.closing s.peers) u).draining at hi
        rcases hdraining u with ⟨-, hu⟩ | ⟨-, hu⟩
        · exact .inl (hu ▸ hi)
        · rw [hu] at hi
          cases hi
    · rintro (hi | ⟨u, hi⟩)
      · exact .inr ⟨t, by simpa [State.goto, Pc.draining] using hi⟩
      · rw [hnone] at hi
        cases hi
  have hsending : ∀ u, (Function.update s.pc t (.closing s.peers) u).sendingTo =
      (s.pc u).sendingTo := read_goto Pc.sendingTo (by rw [hpc]; rfl)
  refine ⟨⟨hlock.owner, hlock.poisoned, hlock.panicked⟩,
    h.starting.keep (read_goto Pc.starting (by rw [hpc]; rfl)) fun _ => .inl rfl,
    fun i hi => h.listed.held_lt i ((hheld i).mp hi),
    fun u i hi => h.listed.sendingTo_lt u i (hsending u ▸ hi), List.nodup_nil, fun u => ?_,
    fun _ _ => rfl, fun i P hP => ?_⟩
  · rcases hdraining u with ⟨-, hu⟩ | ⟨-, hu⟩
    · exact hu.symm ▸ h.listed.nodup
    · exact hu.symm ▸ List.nodup_nil
  · rw [hheld]
    exact h.listed.closes i P hP

/-- A loop is done. -/
theorem Sound.release (h : Sound s) (hlock : (s.pc t).locked = true)
    (hdraining : (s.pc t).draining = []) (hsending : (s.pc t).sendingTo = []) :
    Sound { s.goto t .idle with owner := none } where
  locked := h.locked.release hlock
  starting := by
    have hstarting : (s.pc t).starting = none := by
      cases hpc : s.pc t <;> simp_all [Pc.locked, Pc.starting]
    exact h.starting.keep (read_goto Pc.starting (by rw [hstarting]; rfl)) fun _ => .inl rfl
  listed := h.listed.keep rfl (read_goto Pc.draining (by rw [hdraining]; rfl)) rfl
    (fun _ P hP => ⟨P, hP, rfl⟩) fun u i hi => by
      have hsame : (Function.update s.pc t .idle u).sendingTo = (s.pc u).sendingTo :=
        read_goto Pc.sendingTo (by rw [hsending]; rfl) u
      exact .inl (hsame ▸ hi)

/-- `broadcast` sends to a peer that was started. -/
theorem Sound.send (h : Sound s) {val : UInt32} {i : ℕ} {rest : List ℕ}
    (hpc : s.pc t = .sending val (i :: rest)) {P P' : Peer} (hP : s.made[i]? = some P)
    (hworking : P.Working) (hworking' : P'.Working) (hcloses : P'.closes = P.closes) :
    Sound { s.goto t (.sending val rest) with made := s.made.set i P' } := by
  have hlock : Locked (s.goto t (.sending val rest)) := h.locked.goto (by rw [hpc]; rfl) (by simp)
  refine ⟨⟨hlock.owner, hlock.poisoned, hlock.panicked⟩,
    h.starting.keep (read_goto Pc.starting (by rw [hpc]; rfl)) (made_set hP hworking hworking'),
    h.listed.keep rfl (read_goto Pc.draining (by rw [hpc]; rfl)) (List.length_set ..)
      (closes_set hP hcloses) fun u j hj => .inl ?_⟩
  by_cases hu : u = t
  · subst hu
    have hj' : j ∈ rest := by simpa [State.goto, Pc.sendingTo] using hj
    rw [hpc]
    exact List.mem_cons_of_mem _ hj'
  · simpa [State.goto, hu] using hj

/-- The loop of `close_peers` holds the peers, and the one that it closes no longer. -/
theorem Listed.closing (h : Listed s) (hlock : Locked s) {i : ℕ} {rest : List ℕ}
    (hpc : s.pc t = .closing (i :: rest)) {P' : Peer} (hone : P'.closes = 1) :
    Listed { s.goto t (.closing rest) with made := s.made.set i P' } := by
  have ht : (s.pc t).draining = i :: rest := by rw [hpc]; rfl
  have hempty : s.peers = [] := h.empty t (by simp [ht])
  have hnodup := h.draining t
  rw [ht, List.nodup_cons] at hnodup
  -- No other thread drains the vector.
  have hdrain : ∀ u j, j ∈ (s.pc u).draining → u = t := fun u j hj =>
    hlock.unique (by rw [hpc]; rfl) (locked_of_draining hj)
  have hheld : ∀ j, s.Held j ↔ j = i ∨ j ∈ rest := by
    intro j
    rw [← List.mem_cons, ← ht]
    refine ⟨?_, fun hj => .inr ⟨t, hj⟩⟩
    rintro (hj | ⟨u, hj⟩)
    · rw [hempty] at hj
      cases hj
    · obtain rfl := hdrain u j hj
      exact hj
  have hread : ∀ u j, j ∈ (Function.update s.pc t (.closing rest) u).draining → j ∈ rest := by
    intro u j hj
    by_cases hu : u = t
    · rw [hu, Function.update_self] at hj
      exact hj
    · rw [Function.update_of_ne hu] at hj
      exact absurd (hdrain u j hj) hu
  have hheld' : ∀ j, State.Held { s.goto t (.closing rest) with made := s.made.set i P' } j ↔
      j ∈ rest := by
    refine fun j => ⟨?_, fun hj => .inr ⟨t, by simpa [State.goto, Pc.draining] using hj⟩⟩
    rintro (hj | ⟨u, hj⟩)
    · change j ∈ s.peers at hj
      rw [hempty] at hj
      cases hj
    · exact hread u j hj
  have hsending : ∀ u, (Function.update s.pc t (.closing rest) u).sendingTo =
      (s.pc u).sendingTo := read_goto Pc.sendingTo (by rw [hpc]; rfl)
  refine ⟨fun j hj => ?_, fun u j hj => ?_, h.nodup, fun u => ?_, fun _ _ => hempty,
    fun j Q hQ => ?_⟩
  · rw [List.length_set]
    exact h.held_lt j ((hheld j).mpr (.inr ((hheld' j).mp hj)))
  · rw [List.length_set]
    exact h.sendingTo_lt u j (hsending u ▸ hj)
  · by_cases hu : u = t
    · simpa [State.goto, hu, Pc.draining] using hnodup.2
    · simpa [State.goto, hu] using h.draining u
  · rw [hheld']
    rcases getElem?_set_cases hQ with ⟨rfl, rfl⟩ | ⟨hji, hQ⟩
    · exact .inr ⟨hnodup.1, hone⟩
    · simpa [hheld, hji] using h.closes j Q hQ

/-- `close_peers` closes a peer that was started. -/
theorem Sound.closing (h : Sound s) {i : ℕ} {rest : List ℕ} (hpc : s.pc t = .closing (i :: rest))
    {P P' : Peer} (hP : s.made[i]? = some P) (hworking : P.Working) (hworking' : P'.Working)
    (hone : P'.closes = 1) :
    Sound { s.goto t (.closing rest) with made := s.made.set i P' } := by
  have hlock : Locked (s.goto t (.closing rest)) := h.locked.goto (by rw [hpc]; rfl) (by simp)
  exact ⟨⟨hlock.owner, hlock.poisoned, hlock.panicked⟩,
    h.starting.keep (read_goto Pc.starting (by rw [hpc]; rfl)) (made_set hP hworking hworking'),
    h.listed.closing h.locked hpc hone⟩

/-- The lock that a thread waits for is free when the thread goes on, and is not poisoned. -/
theorem Sound.write (h : Sound s) {locked : State T} (hstep : s.write t locked = some s') :
    s.owner = none ∧ s' = locked := by
  simp only [State.write, h.locked.poisoned, Bool.false_eq_true, if_false] at hstep
  split_ifs at hstep with howner
  · exact ⟨by simpa using howner, (Option.some.inj hstep).symm⟩

/-- The next step of a call keeps the invariant. -/
theorem Sound.run (h : Sound s) (hstarted : ∀ i ∈ (s.pc t).peer, ∀ u, s.pc u ≠ .start i)
    (hstep : s.run t = some s') : Sound s' := by
  unfold State.run at hstep
  cases hpc : s.pc t with
  | idle => simp [hpc] at hstep
  | panicked => simp [hpc] at hstep
  | publish =>
    simp only [hpc] at hstep
    obtain ⟨hfree, rfl⟩ := h.write hstep
    exact h.publish hpc hfree
  | start i =>
    simp only [hpc, h.starting.new t i (by rw [hpc]; rfl), Option.some.injEq] at hstep
    subst hstep
    exact h.start hpc (h.starting.new t i (by rw [hpc]; rfl))
  | broadcast val =>
    simp only [hpc] at hstep
    obtain ⟨hfree, rfl⟩ := h.write hstep
    exact h.broadcast hpc hfree
  | close =>
    simp only [hpc] at hstep
    obtain ⟨hfree, rfl⟩ := h.write hstep
    exact h.close hpc hfree
  | sending val rest =>
    cases rest with
    | nil =>
      simp only [hpc, Option.some.injEq] at hstep
      subst hstep
      exact h.release (by rw [hpc]; rfl) (by rw [hpc]; rfl) (by rw [hpc]; rfl)
    | cons i rest =>
      obtain ⟨P, hP, hworking⟩ := h.working
        (h.listed.sendingTo_lt t i (by rw [hpc]; exact List.mem_cons_self))
        (hstarted i (by rw [hpc]; rfl))
      obtain ⟨r, P', hsend, hworking', hcloses⟩ := hworking.send val
      simp only [hpc, hP, hsend, Option.some.injEq] at hstep
      subst hstep
      exact h.send hpc hP hworking hworking' hcloses
  | closing rest =>
    cases rest with
    | nil =>
      simp only [hpc, Option.some.injEq] at hstep
      subst hstep
      exact h.release (by rw [hpc]; rfl) (by rw [hpc]; rfl) (by rw [hpc]; rfl)
    | cons i rest =>
      have hheld : s.Held i := .inr ⟨t, by rw [hpc]; exact List.mem_cons_self⟩
      obtain ⟨P, hP, hworking⟩ := h.working (h.listed.held_lt i hheld)
        (hstarted i (by rw [hpc]; rfl))
      -- It was not closed before, being held.
      have hnone : P.closes = 0 := by
        rcases h.listed.closes i P hP with ⟨-, hnone⟩ | ⟨hnot, -⟩
        · exact hnone
        · exact absurd hheld hnot
      obtain ⟨r, P', hclose, hworking', hone⟩ := hworking.close hnone
      simp only [hpc, hP, hclose, Option.some.injEq] at hstep
      subst hstep
      exact h.closing hpc hP hworking hworking' hone

/-- A step keeps the invariant. -/
theorem Sound.step {a : Action T} (h : Sound s) (hstarted : Started s a)
    (hstep : step s a = some s') : Sound s' := by
  have hcall : ∀ t pc, s.call t pc = some s' → s.pc t = .idle ∧ s.goto t pc = s' := by
    intro t pc hcall
    unfold State.call at hcall
    split_ifs at hcall with hidle
    · exact ⟨hidle, Option.some.inj hcall⟩
  cases a with
  | add_peer t =>
    obtain ⟨hidle, rfl⟩ := hcall t .publish hstep
    exact h.call hidle rfl (by simp) rfl rfl rfl
  | broadcast t val =>
    obtain ⟨hidle, rfl⟩ := hcall t (.broadcast val) hstep
    exact h.call hidle rfl (by simp) rfl rfl rfl
  | close_peers t =>
    obtain ⟨hidle, rfl⟩ := hcall t .close hstep
    exact h.call hidle rfl (by simp) rfl rfl rfl
  | run t => exact h.run hstarted hstep
  | poll i =>
    obtain ⟨P', hP', rfl⟩ := Option.map_eq_some_iff.mp hstep
    obtain ⟨P, hP, hpolled⟩ := Option.bind_eq_some_iff.mp hP'
    exact h.poll hP hpolled

/-- Whatever threads call `add_peer`, `broadcast` and `close_peers`, and in whatever order they take
their steps: as long as no loop comes to a peer that its `add_peer` has not started yet, no channel
is found absent, and when no call is in progress each peer that was started is in the vector or was
sent one message to close. -/
theorem peers_kept {as : List (Action T)}
    (h : Run (fun s a s' => Peers.step s a = some s' ∧ Started s a) new as s) : Kept s :=
  (h.invariant (fun _ _ _ hs hstep => hs.step hstep.2 hstep.1) sound_new).kept

/-- A thread adds a peer, another one sends a value to it and closes it, and its polling thread
ends. -/
def closeRun : List (Action Bool) :=
  [.add_peer true, .run true, .run true, .broadcast false 7, .run false, .run false, .run false,
   .close_peers false, .run false, .run false, .run false, .poll 0, .poll 0, .poll 0]

/-- The peer of `closeRun` is closed. -/
theorem peers_kept_closeRun : ∃ s : State Bool,
    Run (fun s a s' => Peers.step s a = some s' ∧ Started s a) new closeRun s ∧
      s.made = [⟨some [], some ⟨0, 1⟩, .gone⟩] ∧ Kept s := by
  obtain ⟨s, hs, hmade⟩ : ∃ s : State Bool,
      Run (fun s a s' => Peers.step s a = some s' ∧ Started s a) new closeRun s ∧
        s.made = [⟨some [], some ⟨0, 1⟩, .gone⟩] := ⟨_, run_guarded_iff.mpr rfl, rfl⟩
  exact ⟨s, hs, hmade, peers_kept hs⟩

/-- What `main` does: `close_peers` runs between the two sections of `add_peer`. -/
def panicRun : List (Action Bool) :=
  [.add_peer true, .run true, .close_peers false, .run false, .run false, .run true]

/-- The `unwrap` of the channel panics, and the peer, which is started later, is in the vector no
longer and was sent no message to close. -/
theorem close_peers_panics : ∃ s : State Bool, Run (ofFunction Peers.step) new panicRun s ∧
    s.pc false = .panicked ∧ s.poisoned = true ∧ s.peers = [] ∧
    s.made = [⟨some [], some ⟨0, 0⟩, .send⟩] ∧ ¬ Kept s := by
  obtain ⟨s, hs, hpanic, hrest⟩ : ∃ s : State Bool, Run (ofFunction Peers.step) new panicRun s ∧
      s.pc false = .panicked ∧ s.poisoned = true ∧ s.peers = [] ∧
      s.made = [⟨some [], some ⟨0, 0⟩, .send⟩] :=
    ⟨_, run_function_iff.mpr rfl, rfl, rfl, rfl, rfl⟩
  exact ⟨s, hs, hpanic, hrest.1, hrest.2.1, hrest.2.2, fun h => h.panicked false hpanic⟩

end Peers

end AtomicityViolation
