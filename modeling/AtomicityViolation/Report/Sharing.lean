import AtomicityViolation.Library.Run
import AtomicityViolation.Report.Atom

/-!
# Sharing between threads

Threads are created, end, are joined or detached, and record the accesses that they make by the
value of `pthread_self()`. POSIX promises that the values of two threads differ while both are
there. The value of a thread that has ended may be given to a new one when it has been joined, and
without a join when it is detached, as a Rust thread is whose `JoinHandle` is dropped. So `atom.py`
reports an address that two threads access when the later of the two was created before the earlier
one was joined or ended detached (`sharing_reported`), and may miss it otherwise (`sharing_missed`),
as it may for a name with a comma, which moves the address out of its field.
-/

namespace AtomicityViolation

namespace Sharing

open Transition (Run ofFunction run_function_iff)

/-- How far a thread is: running, running detached, ended, or ended and joined or detached. -/
inductive Status where
  | running
  | detached
  | ended
  | gone
  deriving DecidableEq, Repr

/-- A thread: what `pthread_self()` returns in it, and how far it is. -/
structure Thread (P : Type*) where
  value : P
  status : Status
  deriving DecidableEq, Repr

/-- What happens in a traced program. Threads are numbered in the order of their creation. -/
inductive Event (P : Type*) where
  | create (value : P)
  | finish (t : ℕ)
  | join (t : ℕ)
  | detach (t : ℕ)
  | probe (t : ℕ) (line : Line) (file : List Char) (op : Op) (addr : P)
  deriving DecidableEq

/-- The threads that were created, and the log, each record with the thread that wrote it. -/
structure Traced (P : Type*) where
  threads : List (Thread P)
  log : List (ℕ × Record P)
  deriving DecidableEq

variable {P : Type*} [DecidableEq P]

/-- Before the first thread. -/
def init : Traced P := ⟨[], []⟩

/-- A thread of this status calls probes. -/
def Status.runs : Status → Bool
  | .running | .detached => true
  | .ended | .gone => false

/-- The steps of a traced program. A new thread gets a value that only threads have had that are
gone. -/
def step (s : Traced P) : Event P → Option (Traced P)
  | .create p =>
    if ∀ T ∈ s.threads, T.status = .gone ∨ T.value ≠ p then
      some { s with threads := s.threads ++ [⟨p, .running⟩] }
    else none
  | .finish t =>
    match s.threads[t]? with
    | some ⟨p, .running⟩ => some { s with threads := s.threads.set t ⟨p, .ended⟩ }
    | some ⟨p, .detached⟩ => some { s with threads := s.threads.set t ⟨p, .gone⟩ }
    | _ => none
  | .join t =>
    match s.threads[t]? with
    | some ⟨p, .ended⟩ => some { s with threads := s.threads.set t ⟨p, .gone⟩ }
    | _ => none
  | .detach t =>
    match s.threads[t]? with
    | some ⟨p, .running⟩ => some { s with threads := s.threads.set t ⟨p, .detached⟩ }
    | some ⟨p, .ended⟩ => some { s with threads := s.threads.set t ⟨p, .gone⟩ }
    | _ => none
  | .probe t line file op addr =>
    match s.threads[t]? with
    | some ⟨p, status⟩ =>
      if status.runs then some { s with log := s.log ++ [(t, ⟨p, line, file, addr, op⟩)] } else none
    | none => none

/-- The number of threads that were created. -/
def creates (es : List (Event P)) : ℕ :=
  es.countP fun e => match e with | .create _ => true | _ => false

/-- Thread `t` was joined, or it has ended and was detached. -/
def Freed (t : ℕ) (es : List (Event P)) : Prop :=
  .join t ∈ es ∨ .finish t ∈ es ∧ .detach t ∈ es

instance (t : ℕ) (es : List (Event P)) : Decidable (Freed t es) :=
  inferInstanceAs (Decidable (_ ∨ _ ∧ _))

/-- What has happened to thread `t` when it has a status. -/
def Status.Since (t : ℕ) (es : List (Event P)) : Status → Prop
  | .running => True
  | .detached => .detach t ∈ es
  | .ended => .finish t ∈ es
  | .gone => Freed t es

/-- What a step can do: create a thread, change the status of one, or write a record. -/
theorem step_cases {s s' : Traced P} {e : Event P} (h : step s e = some s') :
    (∃ p, e = .create p ∧ (∀ T ∈ s.threads, T.status = .gone ∨ T.value ≠ p) ∧
      s' = { s with threads := s.threads ++ [⟨p, .running⟩] }) ∨
    (creates [e] = 0 ∧ ∃ t T status, s.threads[t]? = some T ∧
      (∀ es, T.status.Since t es → status.Since t (es ++ [e])) ∧
      s' = { s with threads := s.threads.set t { T with status } }) ∨
    (creates [e] = 0 ∧ ∃ t T r, s.threads[t]? = some T ∧ r.tid = T.value ∧
      s' = { s with log := s.log ++ [(t, r)] }) := by
  cases e with
  | create p =>
    simp only [step, Option.ite_none_right_eq_some, Option.some.injEq] at h
    exact .inl ⟨p, rfl, h.1, h.2.symm⟩
  | finish t =>
    simp only [step] at h
    split at h
    next p hT =>
      refine .inr (.inl ⟨rfl, t, _, .ended, hT, fun es _ => ?_, (Option.some.inj h).symm⟩)
      simp [Status.Since]
    next p hT =>
      -- The thread was detached before, and ends now.
      refine .inr (.inl ⟨rfl, t, _, .gone, hT, fun es hes => ?_, (Option.some.inj h).symm⟩)
      exact .inr ⟨by simp, List.mem_append_left _ hes⟩
    next => cases h
  | join t =>
    simp only [step] at h
    split at h
    next p hT =>
      refine .inr (.inl ⟨rfl, t, _, .gone, hT, fun es _ => ?_, (Option.some.inj h).symm⟩)
      exact .inl (by simp)
    next => cases h
  | detach t =>
    simp only [step] at h
    split at h
    next p hT =>
      refine .inr (.inl ⟨rfl, t, _, .detached, hT, fun es _ => ?_, (Option.some.inj h).symm⟩)
      simp [Status.Since]
    next p hT =>
      -- The thread has ended before, and is detached now.
      refine .inr (.inl ⟨rfl, t, _, .gone, hT, fun es hes => ?_, (Option.some.inj h).symm⟩)
      exact .inr ⟨List.mem_append_left _ hes, by simp⟩
    next => cases h
  | probe t line file op addr =>
    simp only [step] at h
    split at h
    next p status hT =>
      obtain ⟨-, h⟩ := Option.ite_none_right_eq_some.mp h
      exact .inr (.inr ⟨rfl, t, _, _, hT, rfl, (Option.some.inj h).symm⟩)
    next => cases h

/-! ## What a step preserves -/

variable {s s' : Traced P} {e : Event P} {es : List (Event P)} {t : ℕ}

/-- Thread `t` was created, with the value `v`. -/
def HasValue (t : ℕ) (v : P) (s : Traced P) : Prop :=
  ∃ T, s.threads[t]? = some T ∧ T.value = v

/-- A thread keeps its value. -/
theorem HasValue.after {v : P} (h : HasValue t v s) (hstep : step s e = some s') :
    HasValue t v s' := by
  obtain ⟨T, hT, hv⟩ := h
  obtain ⟨p, -, -, rfl⟩ | ⟨-, t', T', status, hT', -, rfl⟩ | ⟨-, t', T', r, -, -, rfl⟩ :=
    step_cases hstep
  · -- A new thread is put behind the others.
    exact ⟨T, List.getElem?_append_left (List.getElem?_eq_some_iff.mp hT).1 ▸ hT, hv⟩
  · by_cases ht : t' = t
    · subst ht
      obtain rfl := Option.some.inj (hT.symm.trans hT')
      exact ⟨_, List.getElem?_set_self (List.getElem?_eq_some_iff.mp hT).1, hv⟩
    · exact ⟨T, by simpa [List.getElem?_set_ne ht] using hT, hv⟩
  · exact ⟨T, hT, hv⟩

/-- The records of a thread carry its value. -/
def Valued (s : Traced P) : Prop := ∀ q ∈ s.log, HasValue q.1 q.2.tid s

/-- A step keeps that. -/
theorem Valued.after (h : Valued s) (hstep : step s e = some s') : Valued s' := by
  intro q hq
  -- A new record carries the value of the thread that writes it.
  have hlog : q ∈ s.log ∨ HasValue q.1 q.2.tid s := by
    obtain ⟨p, -, -, rfl⟩ | ⟨-, t', T', status, -, -, rfl⟩ | ⟨-, t', T', r, hT', hr, rfl⟩ :=
      step_cases hstep
    · exact .inl hq
    · exact .inl hq
    · rcases List.mem_append.mp hq with hq | hq
      · exact .inl hq
      · rw [List.mem_singleton.mp hq]
        exact .inr ⟨T', hT', hr.symm⟩
  exact (hlog.elim (h q) id).after hstep

/-- The statuses of the threads are what has happened to them. -/
def Recounted (es : List (Event P)) (s : Traced P) : Prop :=
  ∀ (t : ℕ) (T : Thread P), s.threads[t]? = some T → T.status.Since t es

omit [DecidableEq P] in
/-- What has happened to a thread stays so. -/
theorem Status.Since.mono {status : Status} {es' : List (Event P)} (h : status.Since t es)
    (hsub : es ⊆ es') : status.Since t es' := by
  cases status with
  | running => trivial
  | detached | ended => exact hsub h
  | gone => exact h.imp (@hsub _) fun h => ⟨hsub h.1, hsub h.2⟩

/-- A step keeps that. -/
theorem Recounted.after (h : Recounted es s) (hstep : step s e = some s') :
    Recounted (es ++ [e]) s' := by
  intro t T hT
  have hsub : es ⊆ es ++ [e] := List.subset_append_left _ _
  obtain ⟨p, -, -, rfl⟩ | ⟨-, t', T', status, hT', hsince, rfl⟩ | ⟨-, t', T', r, -, -, rfl⟩ :=
    step_cases hstep
  · simp only [List.getElem?_append] at hT
    split_ifs at hT with hlen
    · exact (h t T hT).mono hsub
    · -- The thread is the new one.
      have hnew : T = ⟨p, .running⟩ := by
        have := List.mem_of_getElem? hT
        simpa using this
      rw [hnew]
      trivial
  · by_cases ht : t' = t
    · subst ht
      rw [List.getElem?_set_self (List.getElem?_eq_some_iff.mp hT').1] at hT
      obtain rfl := Option.some.inj hT
      exact hsince es (h t' T' hT')
    · rw [List.getElem?_set_ne ht] at hT
      exact (h t T hT).mono hsub
  · exact (h t T hT).mono hsub

/-- A thread for each creation. -/
theorem length_threads (h : Run (ofFunction step) s es s') :
    s'.threads.length = s.threads.length + creates es := by
  induction h with
  | nil => rfl
  | @cons s₀ s₁ s₂ e es hstep _ ih =>
    have hcons : creates (e :: es) = creates [e] + creates es := by
      rw [creates, ← List.singleton_append, List.countP_append]
      rfl
    rw [ih, hcons]
    obtain ⟨p, rfl, -, rfl⟩ | ⟨hzero, t', T', status, -, -, rfl⟩ | ⟨hzero, t', T', r, -, -, rfl⟩ :=
      step_cases hstep
    · simp [creates]
      omega
    · simp [hzero]
    · simp [hzero]

/-! ## Values of threads that are there at the same time -/

/-- What a run preserves: a thread keeps its value. -/
theorem HasValue.after_run {v : P} (h : HasValue t v s) (hrun : Run (ofFunction step) s es s') :
    HasValue t v s' :=
  hrun.invariant (fun _ _ _ hv hstep => hv.after hstep) h

/-- In a run the records of a thread carry its value. -/
theorem valued_run (hrun : Run (ofFunction step) init es s) : Valued s := by
  refine hrun.invariant (fun _ _ _ hv hstep => hv.after hstep) ?_
  intro q hq
  cases hq

/-- In a run a thread that was neither joined nor ended detached is not gone. -/
theorem not_gone_run (hrun : Run (ofFunction step) init es s) (hfreed : ¬ Freed t es) {T : Thread P}
    (hT : s.threads[t]? = some T) : T.status ≠ .gone := by
  have hinit : Recounted [] (init : Traced P) := fun t T hT => by cases hT
  have hsince : Recounted ([] ++ es) s :=
    hrun.invariant_trace (fun _ _ _ _ h hstep => h.after hstep) hinit
  intro hgone
  have := hsince t T hT
  rw [hgone] at this
  exact hfreed this

/-- A thread that is created before another one is joined or ends detached gets another value. -/
theorem value_ne {pre post : List (Event P)} {p v v' : P}
    (hrun : Run (ofFunction step) init (pre ++ .create p :: post) s) (ht : t < creates pre)
    (hfreed : ¬ Freed t pre) (hv : HasValue t v s)
    (hv' : HasValue (creates pre) v' s) : v ≠ v' := by
  obtain ⟨s₁, h₁, h₂⟩ := hrun.split
  cases h₂ with
  | cons hstep hrest =>
    -- At the creation, thread `t` is there and not gone, so its value is another one.
    have hlen : s₁.threads.length = creates pre := by
      simpa [init] using length_threads h₁
    obtain ⟨T, hT⟩ : ∃ T, s₁.threads[t]? = some T :=
      ⟨_, List.getElem?_eq_getElem (hlen ▸ ht)⟩
    obtain ⟨q, hq, hguard, rfl⟩ | ⟨hzero, -⟩ | ⟨hzero, -⟩ := step_cases hstep
    · obtain rfl : p = q := by simpa using hq
      have hne : T.value ≠ p :=
        (hguard T (List.mem_of_getElem? hT)).resolve_left (not_gone_run h₁ hfreed hT)
      -- Both values are still there at the end of the run.
      have hhad : HasValue t T.value s₁ := ⟨T, hT, rfl⟩
      have hold : HasValue t T.value s := (hhad.after hstep).after_run hrest
      have hnew : HasValue (creates pre) p s :=
        HasValue.after_run ⟨⟨p, .running⟩, by simp [← hlen], rfl⟩ hrest
      -- A thread has one value.
      have huniq : ∀ {u : ℕ} {w w' : P}, HasValue u w s → HasValue u w' s → w = w' := by
        rintro u w w' ⟨T₁, hT₁, rfl⟩ ⟨T₂, hT₂, rfl⟩
        rw [Option.some.inj (hT₁.symm.trans hT₂)]
      rwa [huniq hv hold, huniq hv' hnew]
    · simp [creates] at hzero
    · simp [creates] at hzero

/-! ## The report -/

/-- The records of the log. -/
def records (s : Traced P) : List (Record P) := s.log.map Prod.snd

/-- A reported address has its block in the report. -/
theorem block_infix (fmt : PointerFormat P) {as : List P} {a : P} (h : a ∈ as)
    (rs : List (Record P)) : Atom.block fmt rs a <:+: as.flatMap (Atom.block fmt rs) := by
  obtain ⟨l, l', rfl⟩ := List.append_of_mem h
  exact ⟨l.flatMap (Atom.block fmt rs), l'.flatMap (Atom.block fmt rs), by simp⟩

/-- Sharing is reported for names without comma and line break: when thread `t` and a later thread
both record an access to an address, and when the later one was created thread `t` had neither been
joined nor ended detached, the report for the log contains the block of that address. -/
theorem sharing_reported (fmt : PointerFormat P) {pre post : List (Event P)} {p : P}
    (hrun : Run (ofFunction step) init (pre ++ .create p :: post) s) (ht : t < creates pre)
    (hfreed : ¬ Freed t pre) {r r' : Record P} (hr : (t, r) ∈ s.log)
    (hr' : (creates pre, r') ∈ s.log) (haddr : r'.addr = r.addr)
    (hclean : ∀ q ∈ s.log, Clean q.2.file) :
    ∃ out, Atom.run (fmt.log (records s)) = .ok out ∧
      Atom.block fmt (records s) r.addr <:+: out := by
  have hvalued := valued_run hrun
  have htid : r.tid ≠ r'.tid := value_ne hrun ht hfreed (hvalued _ hr) (hvalued _ hr')
  have hshared : Atom.Shared (records s) r.addr :=
    ⟨r, List.mem_map_of_mem hr, r', List.mem_map_of_mem hr', rfl, haddr, htid⟩
  have hnames : ∀ r ∈ records s, Clean r.file := by
    intro r hr
    obtain ⟨q, hq, rfl⟩ := List.mem_map.mp hr
    exact hclean q hq
  exact ⟨_, Atom.run_log fmt hnames, block_infix fmt (Atom.mem_reported.mpr hshared) _⟩

/-- Two threads that are there together and access the address `16`. The first one is detached. -/
def together : List (Event ℕ) :=
  [.create 1, .detach 0, .create 2, .probe 0 120 "peers".toList .store 16, .finish 0, .create 1,
    .probe 1 130 "peers".toList .load 16]

/-- The state after `together`. -/
def togetherEnd : Traced ℕ :=
  ⟨[⟨1, .gone⟩, ⟨2, .running⟩, ⟨1, .running⟩],
    [(0, ⟨1, 120, "peers".toList, 16, .store⟩), (1, ⟨2, 130, "peers".toList, 16, .load⟩)]⟩

/-- The report after `together`. -/
theorem sharing_reported_together :
    Run (ofFunction step) init together togetherEnd ∧
    ∃ out, Atom.run (glibcPointer.log (records togetherEnd)) = .ok out ∧
      Atom.block glibcPointer (records togetherEnd) 16 <:+: out := by
  have hrun : Run (ofFunction step) init together togetherEnd :=
    run_function_iff.mpr (by decide)
  exact ⟨hrun, @sharing_reported ℕ _ togetherEnd 0 glibcPointer [.create 1, .detach 0] _ 2 hrun
    (by decide) (by decide) ⟨1, 120, "peers".toList, 16, .store⟩
    ⟨2, 130, "peers".toList, 16, .load⟩ (by decide) (by decide) rfl (by decide)⟩

/-- Sharing that is missed. In the first run thread 1 is joined before thread 2 is created with its
value, and in the second it is detached and ends; both access the address `16`, and the report is
empty. In the third run two threads that are there together access the address, under a name with a
comma, and the report has the block of the end of the name. -/
theorem sharing_missed :
    (∃ s, Run (ofFunction step) init
        [.create 1, .create 2, .probe 1 120 "peers".toList .store 16, .finish 1, .join 1, .create 2,
          .probe 2 130 "peers".toList .load 16] s ∧
      (1, ⟨2, 120, "peers".toList, 16, .store⟩) ∈ s.log ∧
      (2, ⟨2, 130, "peers".toList, 16, .load⟩) ∈ s.log ∧
      Atom.run (glibcPointer.log (records s)) = .ok []) ∧
    (∃ s, Run (ofFunction step) init
        [.create 1, .create 2, .detach 1, .probe 1 120 "peers".toList .store 16, .finish 1,
          .create 2, .probe 2 130 "peers".toList .load 16] s ∧
      (1, ⟨2, 120, "peers".toList, 16, .store⟩) ∈ s.log ∧
      (2, ⟨2, 130, "peers".toList, 16, .load⟩) ∈ s.log ∧
      Atom.run (glibcPointer.log (records s)) = .ok []) ∧
    ∃ s, Run (ofFunction step) init
        [.create 1, .create 2, .probe 0 120 "a,b".toList .store 16,
          .probe 1 130 "a,b".toList .load 16] s ∧
      (0, ⟨1, 120, "a,b".toList, 16, .store⟩) ∈ s.log ∧
      (1, ⟨2, 130, "a,b".toList, 16, .load⟩) ∈ s.log ∧
      Atom.run (glibcPointer.log (records s)) =
        .ok ["address: [b]".toList, "TID: 0x1 OP: 0x10".toList, "TID: 0x2 OP: 0x10".toList,
          Atom.dashes] := by
  refine ⟨⟨⟨[⟨1, .running⟩, ⟨2, .gone⟩, ⟨2, .running⟩],
    [(1, ⟨2, 120, "peers".toList, 16, .store⟩), (2, ⟨2, 130, "peers".toList, 16, .load⟩)]⟩,
    run_function_iff.mpr (by decide), by decide, by decide, by decide +kernel⟩,
    ⟨⟨[⟨1, .running⟩, ⟨2, .gone⟩, ⟨2, .running⟩],
    [(1, ⟨2, 120, "peers".toList, 16, .store⟩), (2, ⟨2, 130, "peers".toList, 16, .load⟩)]⟩,
    run_function_iff.mpr (by decide), by decide, by decide, by decide +kernel⟩,
    ⟨⟨[⟨1, .running⟩, ⟨2, .running⟩],
    [(0, ⟨1, 120, "a,b".toList, 16, .store⟩), (1, ⟨2, 130, "a,b".toList, 16, .load⟩)]⟩,
    run_function_iff.mpr (by decide), by decide, by decide, by decide +kernel⟩⟩

end Sharing

end AtomicityViolation
