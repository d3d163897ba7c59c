import AtomicityViolation.Concurrency.Code
import AtomicityViolation.Concurrency.Locksets

/-!
# Deadlocks in the log

A lock record is written before the lock is acquired, so the last record of a thread that waits for
a lock tells of the lock. What the thread holds is told by its other lock records, those without a
later unlock record (`guardset`). So where acquisitions and drops are probed, threads that wait for
each other can be read from the log, and what reads like that in the log is a deadlock
(`deadlock_iff`).
-/

namespace AtomicityViolation

/-- The kind and the lock of a guard. -/
def Guard.key {T P : Type*} (g : Guard T P) : GuardKind × P := (g.kind, g.lock)

namespace Threads

open Transition (Run)
open Ledger (Mark unmatched)
open Threads.State

variable {T P : Type*}

/-! ## What the log tells of a thread -/

/-- The kinds and the locks of guards. -/
def keysOf (gs : List (Guard T P)) : Multiset (GuardKind × P) :=
  (gs : Multiset (Guard T P)).map Guard.key

/-- What a record opens or closes. -/
def Entry.keyMark (e : Entry T P) : Option (Mark (GuardKind × P)) :=
  match e.call.op.role with
  | .acquire kind => some (.opened (kind, e.call.addr))
  | .release kind => some (.closed (kind, e.call.addr))
  | .access => none

/-- The thread is between the two steps of an acquisition or of a release. -/
def Pending.OfLock : Pending T P → Prop
  | .acquire _ _ _ | .release _ => True
  | _ => False

section

variable [DecidableEq T] [DecidableEq P]

/-- The records of a thread. -/
def recordsBy (t : T) (log : List (Entry T P)) : List (Entry T P) :=
  log.filter fun e => decide (e.tid = t)

/-- The kinds and addresses of the lock records that no later unlock record matches. -/
def guardset (rs : List (Entry T P)) : Multiset (GuardKind × P) :=
  unmatched (rs.filterMap Entry.keyMark)

/-- What the records of a thread say that holds these guards, while it is there. -/
def Pending.dueKeys (keys : Multiset (GuardKind × P)) : Pending T P → Multiset (GuardKind × P)
  | .acquire kind lock _ => (kind, lock) ::ₘ keys
  | .release g => keys.erase g.key
  | _ => keys

end

/-! ## What a step does -/

variable [DecidableEq T] [DecidableEq P]

/-- What a step of a thread does to its records and guards. -/
inductive LockStep (t : T) (s s' : State T P) : Prop
  | access {e : Entry T P} : ¬ (s.pending t).OfLock → ¬ (s'.pending t).OfLock →
      e.call.op.role = .access → recordsBy t s'.log = recordsBy t s.log ++ [e] →
      s'.guardsOf t = s.guardsOf t → LockStep t s s'
  | silent : ¬ (s.pending t).OfLock → ¬ (s'.pending t).OfLock →
      recordsBy t s'.log = recordsBy t s.log → s'.guardsOf t = s.guardsOf t → LockStep t s s'
  | opens {kind : GuardKind} {record : Option ℕ} {e : Entry T P} : ¬ (s.pending t).OfLock →
      s'.pending t = .acquire kind e.call.addr record → e.call.op.role = .acquire kind →
      recordsBy t s'.log = recordsBy t s.log ++ [e] → s'.guardsOf t = s.guardsOf t → LockStep t s s'
  | acquires {g : Guard T P} {record : Option ℕ} : s.pending t = .acquire g.kind g.lock record →
      ¬ (s'.pending t).OfLock → recordsBy t s'.log = recordsBy t s.log →
      s'.guardsOf t = s.guardsOf t ++ [g] → LockStep t s s'
  | closes {g : Guard T P} {e : Entry T P} : ¬ (s.pending t).OfLock → s'.pending t = .release g →
      g ∈ s.guardsOf t → e.call.op.role = .release g.kind → e.call.addr = g.lock →
      recordsBy t s'.log = recordsBy t s.log ++ [e] → s'.guardsOf t = s.guardsOf t → LockStep t s s'
  | releases {g : Guard T P} : s.pending t = .release g → ¬ (s'.pending t).OfLock →
      recordsBy t s'.log = recordsBy t s.log → s'.guardsOf t = (s.guardsOf t).erase g →
      LockStep t s s'

variable {src : Source} {s s' : State T P} {x : Action T P} {as : List (Action T P)}

omit [DecidableEq P] in
/-- A thread writes a record. -/
theorem recordsBy_probe (t : T) (call : ProbeCall P) (subject : Subject T P) :
    recordsBy t (s.probe t call subject).log =
      recordsBy t s.log ++ [⟨t, call, subject, s.guardsOf t⟩] := by
  simp [recordsBy, State.probe, List.filter_append]

omit [DecidableEq P] in
/-- Another thread writes a record. -/
theorem recordsBy_probe_of_ne {t u : T} (hu : u ≠ t) (call : ProbeCall P) (subject : Subject T P) :
    recordsBy u (s.probe t call subject).log = recordsBy u s.log := by
  simp [recordsBy, State.probe, List.filter_append, Ne.symm hu]

/-- The other threads keep their places, records and guards. -/
theorem Step.of_ne (hstep : Step src s x s') {u : T} (hu : u ≠ x.thread) :
    s'.pending u = s.pending u ∧ s'.guardsOf u = s.guardsOf u ∧
      recordsBy u s'.log = recordsBy u s.log := by
  refine ⟨hstep.pending_of_ne hu, ?_⟩
  cases hstep with
  | storeProbe | loadProbe | lockProbe | unlockProbe => exact ⟨rfl, recordsBy_probe_of_ne hu ..⟩
  | @acquire t kind lock dst record =>
    exact ⟨guardsOf_grant_of_ne s hu kind lock record dst, rfl⟩
  | release => exact ⟨guardsOf_drop_of_ne _ hu, rfl⟩
  | store | load | write | lockBare | move | unlockBare => exact ⟨rfl, rfl⟩

/-- Every step of a tidy program does one of these to the thread that takes it. -/
theorem TidyStep.lockStep (hplaced : Placed s) (hstep : TidyStep src s x s') :
    LockStep x.thread s s' := by
  obtain ⟨hstep, htidy⟩ := hstep
  have houtside : ∀ {t : T} {p : Pending T P}, s.pending t = p → ¬ p.OfLock →
      ¬ (s.pending t).OfLock := fun ht hp => ht ▸ hp
  have hgoto : ∀ {r : State T P} {t : T} {p : Pending T P}, ¬ p.OfLock →
      ¬ ((r.goto t p).pending t).OfLock := fun hp => by rwa [pending_goto_self]
  cases hstep with
  | storeProbe ht =>
    exact .access (houtside ht not_false) (hgoto not_false) rfl (recordsBy_probe ..) rfl
  | store ht => exact .silent (houtside ht not_false) (hgoto not_false) rfl rfl
  | load ht => exact .silent (houtside ht not_false) (hgoto not_false) rfl rfl
  | loadProbe ht =>
    exact .access (houtside ht not_false) (hgoto not_false) rfl (recordsBy_probe ..) rfl
  | write ht => exact .silent (houtside ht not_false) (houtside ht not_false) rfl rfl
  | move ht => exact .silent (houtside ht not_false) (houtside ht not_false) rfl rfl
  | @lockProbe t loc arm kind args lock addr ht harm hrole hlock haddr =>
    -- The probe is given the operand that is acquired.
    obtain rfl := haddr lock (Source.eval_acquire harm hrole hlock)
    let e : Entry T P :=
      ⟨t, .probeLock loc.line loc.file arm.op addr, .acquisition, s.guardsOf t⟩
    exact .opens (e := e) (houtside ht not_false) (pending_goto_self ..) hrole
      (recordsBy_probe ..) rfl
  | lockBare => exact absurd htidy not_false
  | @acquire t kind lock dst record ht hfree =>
    exact .acquires (g := ⟨s.sections.length, t, kind, lock, record⟩) ht (hgoto not_false) rfl
      (guardsOf_grant_self s t kind lock record dst)
  | @unlockProbe loc arm g y addr ht hg hplace harm hrole haddr =>
    -- The guard stands at its place, so the route loads the address of its lock.
    obtain ⟨z, hz, hcell⟩ := hplaced g hg
    rw [hplace, Option.some.injEq] at hz
    have haddr' := haddr _ (Source.eval_release harm hrole (hz ▸ hcell))
    let e : Entry T P :=
      ⟨g.tid, .probeLock loc.line loc.file arm.op addr, .release g, s.guardsOf g.tid⟩
    exact .closes (e := e) (houtside ht not_false) (pending_goto_self ..)
      (mem_guardsOf.mpr ⟨hg, rfl⟩) hrole haddr' (recordsBy_probe ..) rfl
  | unlockBare => exact absurd htidy not_false
  | release ht => exact .releases ht (hgoto not_false) rfl (guardsOf_drop ..)

/-! ## The account of a thread -/

/-- The log tells of a thread what it holds and waits for: its guards, and the lock that it is about
to acquire, which its last record is of. If the last record is of an acquisition, then the thread is
about to acquire the lock, or it holds it and has gone on. -/
structure Accounted (p : Pending T P) (rs : List (Entry T P)) (gs : List (Guard T P)) : Prop where
  guards : guardset rs = p.dueKeys (keysOf gs)
  waiting : ∀ kind lock record, p = .acquire kind lock record →
    ∃ e, rs.getLast? = some e ∧ e.call.op.role = .acquire kind ∧ e.call.addr = lock
  acquired : ∀ e kind, rs.getLast? = some e → e.call.op.role = .acquire kind →
    (∃ record, p = .acquire kind e.call.addr record) ∨
      ¬ p.OfLock ∧ ∃ g ∈ gs, g.key = (kind, e.call.addr)
  releasing : ∀ g, p = .release g → g ∈ gs

omit [DecidableEq T] in
/-- Outside the lock operations nothing is due. -/
theorem dueKeys_of_not_ofLock {p : Pending T P} (hp : ¬ p.OfLock)
    (keys : Multiset (GuardKind × P)) : p.dueKeys keys = keys := by
  cases p <;> first | rfl | exact absurd trivial hp

omit [DecidableEq T] [DecidableEq P] in
/-- The keys with one more guard. -/
theorem keysOf_concat (gs : List (Guard T P)) (g : Guard T P) :
    keysOf (gs ++ [g]) = g.key ::ₘ keysOf gs := by
  rw [keysOf, keysOf, ← Multiset.coe_add, Multiset.map_add, Multiset.coe_singleton,
    Multiset.map_singleton, Multiset.add_comm, Multiset.singleton_add]

/-- The keys with one guard less. -/
theorem keysOf_erase {gs : List (Guard T P)} {g : Guard T P} (hg : g ∈ gs) :
    keysOf (gs.erase g) = (keysOf gs).erase g.key := by
  rw [keysOf, keysOf, ← Multiset.coe_erase]
  exact Multiset.map_erase_of_mem Guard.key _ hg

omit [DecidableEq T] in
/-- One more record of a thread. -/
theorem guardset_concat (rs : List (Entry T P)) (e : Entry T P) :
    guardset (rs ++ [e]) = match e.call.op.role with
      | .acquire kind => (kind, e.call.addr) ::ₘ guardset rs
      | .release kind => (guardset rs).erase (kind, e.call.addr)
      | .access => guardset rs := by
  unfold guardset
  cases hrole : e.call.op.role <;> simp [List.filterMap_append, Entry.keyMark, hrole]

omit [DecidableEq T] in
/-- The account of a thread outside the lock operations. -/
theorem Accounted.of_not_ofLock {p : Pending T P} {rs : List (Entry T P)} {gs : List (Guard T P)}
    (hp : ¬ p.OfLock) (hguards : guardset rs = keysOf gs)
    (hacquired : ∀ e kind, rs.getLast? = some e → e.call.op.role = .acquire kind →
      ∃ g ∈ gs, g.key = (kind, e.call.addr)) : Accounted p rs gs where
  guards := hguards.trans (dueKeys_of_not_ofLock hp _).symm
  waiting := by
    rintro kind lock record rfl
    exact absurd trivial hp
  acquired e kind he hrole := .inr ⟨hp, hacquired e kind he hrole⟩
  releasing := by
    rintro g rfl
    exact absurd trivial hp

omit [DecidableEq T] in
/-- Outside the lock operations, the lock of a last record of an acquisition is held. -/
theorem Accounted.acquired_of_not_ofLock {p : Pending T P} {rs : List (Entry T P)}
    {gs : List (Guard T P)} (h : Accounted p rs gs) (hp : ¬ p.OfLock) :
    guardset rs = keysOf gs ∧ ∀ e kind, rs.getLast? = some e → e.call.op.role = .acquire kind →
      ∃ g ∈ gs, g.key = (kind, e.call.addr) := by
  refine ⟨h.guards.trans (dueKeys_of_not_ofLock hp _), fun e kind he hrole => ?_⟩
  rcases h.acquired e kind he hrole with ⟨record, rfl⟩ | ⟨-, hg⟩
  · exact absurd trivial hp
  · exact hg

/-- Every step of a thread keeps its account. -/
theorem Accounted.step {t : T}
    (h : Accounted (s.pending t) (recordsBy t s.log) (s.guardsOf t)) (hstep : LockStep t s s') :
    Accounted (s'.pending t) (recordsBy t s'.log) (s'.guardsOf t) := by
  cases hstep with
  | @access e hp hp' hrole hrs hgs =>
    obtain ⟨hguards, -⟩ := h.acquired_of_not_ofLock hp
    rw [hrs, hgs]
    refine .of_not_ofLock hp' ?_ fun d kind hd hacq => ?_
    · rw [guardset_concat, hrole]
      exact hguards
    · -- The last record is of an access.
      obtain rfl : e = d := by simpa using hd
      rw [hrole] at hacq
      cases hacq
  | silent hp hp' hrs hgs =>
    obtain ⟨hguards, hacquired⟩ := h.acquired_of_not_ofLock hp
    rw [hrs, hgs]
    exact .of_not_ofLock hp' hguards hacquired
  | @opens kind record e hp hp' hrole hrs hgs =>
    obtain ⟨hguards, -⟩ := h.acquired_of_not_ofLock hp
    rw [hp', hrs, hgs]
    refine ⟨?_, ?_, fun d kind' hd hacq => .inl ?_, by simp⟩
    · rw [guardset_concat, hrole, hguards]
      rfl
    · rintro _ _ _ ⟨⟩
      exact ⟨e, by simp, hrole, rfl⟩
    · obtain rfl : e = d := by simpa using hd
      rw [hrole, Role.acquire.injEq] at hacq
      exact ⟨record, by rw [hacq]⟩
  | @acquires g record hp hp' hrs hgs =>
    rw [hrs, hgs]
    refine .of_not_ofLock hp' ?_ fun d kind hd hacq => ⟨g, by simp, ?_⟩
    · rw [keysOf_concat, h.guards, hp]
      rfl
    · -- The last record is that of the acquisition.
      obtain ⟨e, he, hrole, haddr⟩ := h.waiting _ _ _ hp
      obtain rfl : e = d := Option.some.inj (he.symm.trans hd)
      rw [hrole, Role.acquire.injEq] at hacq
      rw [Guard.key, haddr, hacq]
  | @closes g e hp hp' hg hrole haddr hrs hgs =>
    obtain ⟨hguards, -⟩ := h.acquired_of_not_ofLock hp
    rw [hp', hrs, hgs]
    refine ⟨?_, by simp, fun d kind hd hacq => ?_, ?_⟩
    · rw [guardset_concat, hrole, haddr, hguards]
      rfl
    · obtain rfl : e = d := by simpa using hd
      rw [hrole] at hacq
      cases hacq
    · rintro _ ⟨⟩
      exact hg
  | @releases g hp hp' hrs hgs =>
    rw [hrs, hgs]
    refine .of_not_ofLock hp' ?_ fun d kind hd hacq => ?_
    · rw [keysOf_erase (h.releasing g hp), h.guards, hp]
      rfl
    · -- A thread that releases a guard has recorded that last.
      rcases h.acquired d kind hd hacq with ⟨record, hp''⟩ | ⟨hout, -⟩
      · rw [hp] at hp''
        cases hp''
      · rw [hp] at hout
        exact absurd trivial hout

/-- In every state of a run of a tidy program, the log accounts for every thread. -/
theorem accounted_run {memory : P → Cell P} (hrun : Run (TidyStep src) (init memory) as s) (t : T) :
    Accounted (s.pending t) (recordsBy t s.log) (s.guardsOf t) := by
  have hall : Tracked s ∧ ∀ t, Accounted (s.pending t) (recordsBy t s.log) (s.guardsOf t) := by
    refine hrun.invariant (I := fun s => Tracked s ∧
      ∀ t, Accounted (s.pending t) (recordsBy t s.log) (s.guardsOf t)) ?_
      ⟨tracked_init memory, fun t => .of_not_ofLock not_false rfl (by simp [init, recordsBy])⟩
    rintro s x s' ⟨htracked, hs⟩ hstep
    refine ⟨htracked.step hstep, fun u => ?_⟩
    by_cases hu : u = x.thread
    · subst hu
      exact (hs _).step (hstep.lockStep htracked.placed)
    · obtain ⟨hpending, hguards, hrecords⟩ := hstep.1.of_ne hu
      rw [hpending, hguards, hrecords]
      exact hs u
  exact hall.2 t

/-! ## Deadlocks -/

/-- A thread waits for a lock, which it does not get while another thread, or itself, holds a guard
of it. -/
def State.WaitsFor (s : State T P) (t u : T) : Prop :=
  ∃ kind lock record, s.pending t = .acquire kind lock record ∧
    ∃ g ∈ s.guardsOf u, g.lock = lock ∧ g.kind.excludes kind = true

/-- The log reads so: the last record of each of the two threads is of an acquisition, and the other
records of the second one leave a guard open that excludes what the last record of the first one is
of. -/
def ReadsWaiting (log : List (Entry T P)) (t u : T) : Prop :=
  ∃ d e k l m, (recordsBy t log).getLast? = some d ∧ d.call.op.role = .acquire k ∧
    (recordsBy u log).getLast? = some e ∧ e.call.op.role = .acquire l ∧
    (m, d.call.addr) ∈ (guardset (recordsBy u log)).erase (l, e.call.addr) ∧
    m.excludes k = true

omit [DecidableEq T] [DecidableEq P] in
/-- What is in the keys of guards is the key of one. -/
theorem mem_keysOf {gs : List (Guard T P)} {k : GuardKind × P} :
    k ∈ keysOf gs ↔ ∃ g ∈ gs, g.key = k := by
  simp [keysOf]

/-- A thread that waits for one that waits, too, reads so in the log. -/
theorem Accounted.readsWaiting {t u : T}
    (ht : Accounted (s.pending t) (recordsBy t s.log) (s.guardsOf t))
    (hu : Accounted (s.pending u) (recordsBy u s.log) (s.guardsOf u)) {v : T}
    (h : s.WaitsFor t u) (h' : s.WaitsFor u v) : ReadsWaiting s.log t u := by
  obtain ⟨k, lock, record, hp, g, hg, rfl, hex⟩ := h
  obtain ⟨l, lock', record', hp', -⟩ := h'
  obtain ⟨d, hd, hrole, haddr⟩ := ht.waiting _ _ _ hp
  obtain ⟨e, he, hrole', haddr'⟩ := hu.waiting _ _ _ hp'
  refine ⟨d, e, k, l, g.kind, hd, hrole, he, hrole', ?_, hex⟩
  -- Without what the second one waits for, there are its guards.
  have hkeys : guardset (recordsBy u s.log) = (l, lock') ::ₘ keysOf (s.guardsOf u) := by
    rw [hu.guards, hp']
    rfl
  rw [hkeys, haddr', Multiset.erase_cons_head, haddr]
  exact mem_keysOf.mpr ⟨g, hg, rfl⟩

/-- Where the log reads so, the first one waits for the second one. -/
theorem Accounted.waitsFor {t u : T}
    (ht : Accounted (s.pending t) (recordsBy t s.log) (s.guardsOf t))
    (hu : Accounted (s.pending u) (recordsBy u s.log) (s.guardsOf u)) (hnodup : s.held.Nodup)
    (hexclusive : ∀ g ∈ s.held, ∀ h ∈ s.held, g.Excludes h → g = h)
    (h : ReadsWaiting s.log t u) : s.WaitsFor t u := by
  obtain ⟨d, e, k, l, m, hd, hrole, he, hrole', hmem, hex⟩ := h
  -- The second thread holds the guard, whether it still waits or has its lock.
  obtain ⟨g, hg, hkey⟩ : ∃ g ∈ s.guardsOf u, g.key = (m, d.call.addr) := by
    rw [← mem_keysOf]
    rcases hu.acquired e l he hrole' with ⟨record, hp⟩ | ⟨hout, -⟩
    · have hkeys := hu.guards
      rw [hp, Pending.dueKeys] at hkeys
      rwa [hkeys, Multiset.erase_cons_head] at hmem
    · rw [(hu.acquired_of_not_ofLock hout).1] at hmem
      exact Multiset.mem_of_mem_erase hmem
  obtain ⟨rfl, hlock⟩ : g.kind = m ∧ g.lock = d.call.addr := Prod.mk.inj hkey
  rcases ht.acquired d k hd hrole with ⟨record, hp⟩ | ⟨hout, g', hg', hkey'⟩
  · exact ⟨k, d.call.addr, record, hp, g, hg, hlock, hex⟩
  · -- If the first thread had its lock, the two guards would be held together.
    exfalso
    obtain ⟨rfl, hlock'⟩ : g'.kind = k ∧ g'.lock = d.call.addr := Prod.mk.inj hkey'
    have hheld := mem_guardsOf.mp hg
    have hheld' := mem_guardsOf.mp hg'
    have heq : g = g' := hexclusive g hheld.1 g' hheld'.1 ⟨hlock.trans hlock'.symm, hex⟩
    have htu : t = u := by rw [← hheld.2, ← hheld'.2, heq]
    subst htu
    obtain rfl : d = e := Option.some.inj (hd.symm.trans he)
    -- So it is one thread with one guard, and nothing is left without that.
    rw [hrole, Role.acquire.injEq] at hrole'
    rw [(ht.acquired_of_not_ofLock hout).1, ← hrole', ← hkey', ← keysOf_erase hg', mem_keysOf]
      at hmem
    obtain ⟨g₁, hg₁, hkey₁⟩ := hmem
    obtain ⟨hkind₁, hlock₁⟩ : g₁.kind = g.kind ∧ g₁.lock = d.call.addr := Prod.mk.inj hkey₁
    have hheld₁ := mem_guardsOf.mp (List.mem_of_mem_erase hg₁)
    have heq₁ : g₁ = g' :=
      hexclusive g₁ hheld₁.1 g' hheld'.1 ⟨hlock₁.trans hlock'.symm, hkind₁ ▸ hex⟩
    rw [heq₁] at hg₁
    exact (hnodup.filter _).not_mem_erase hg₁

/-- Threads that wait for each other do not move, and go on waiting. -/
theorem stuck_step {D : Set T} (hD : ∀ t ∈ D, ∃ u ∈ D, s.WaitsFor t u) (hstep : Step src s x s') :
    x.thread ∉ D ∧ ∀ t ∈ D, ∃ u ∈ D, s'.WaitsFor t u := by
  have hthread : x.thread ∉ D := by
    intro hx
    obtain ⟨u, -, kind, lock, record, hp, g, hg, hlock, hex⟩ := hD _ hx
    have hheld := (mem_guardsOf.mp hg).1
    -- The only step of a thread that waits is to acquire its lock, which is not free.
    cases hstep with
    | acquire ht hfree =>
      obtain ⟨rfl, rfl, -⟩ := Pending.acquire.inj (ht.symm.trans hp)
      rw [hfree g hheld hlock] at hex
      cases hex
    | _ => simp_all [Action.thread]
  refine ⟨hthread, fun t ht => ?_⟩
  obtain ⟨u, hu, kind, lock, record, hp, g, hg, hrest⟩ := hD t ht
  have hne : ∀ v ∈ D, v ≠ x.thread := fun v hv heq => hthread (heq ▸ hv)
  obtain ⟨hpending, -, -⟩ := hstep.of_ne (hne t ht)
  obtain ⟨-, hguards, -⟩ := hstep.of_ne (hne u hu)
  exact ⟨u, hu, kind, lock, record, hpending.trans hp, g, hguards ▸ hg, hrest⟩

/-- Deadlocks can be read from the log. In every state of every run of a tidy program, and for every
set of threads: each of them waits for one of them if and only if the log reads so. Then none of
them takes a step in any run that follows. -/
theorem deadlock_iff {memory : P → Cell P} (hrun : Run (TidyStep src) (init memory) as s)
    (D : Set T) :
    ((∀ t ∈ D, ∃ u ∈ D, s.WaitsFor t u) ↔ ∀ t ∈ D, ∃ u ∈ D, ReadsWaiting s.log t u) ∧
      ((∀ t ∈ D, ∃ u ∈ D, ReadsWaiting s.log t u) →
        ∀ bs s', Run (Step src) s bs s' → ∀ x ∈ bs, x.thread ∉ D) := by
  have haccounted := accounted_run hrun
  obtain ⟨-, cs, hcs⟩ := run_sections (hrun.mono fun _ _ _ hstep => hstep.1)
  have hexclusive : ∀ g ∈ s.held, ∀ h ∈ s.held, g.Excludes h → g = h := fun g hg h hh hex =>
    (Sections.separated_run hcs).exclusive hex hex.symm hg hh
  have hread : ∀ t u, ReadsWaiting s.log t u → s.WaitsFor t u := fun t u =>
    (haccounted t).waitsFor (haccounted u) (Sections.nodup_holding hcs) hexclusive
  refine ⟨⟨fun hD t ht => ?_, fun hD t ht => ?_⟩, fun hD bs s' hbs => ?_⟩
  · obtain ⟨u, hu, hwaits⟩ := hD t ht
    obtain ⟨v, -, hwaits'⟩ := hD u hu
    exact ⟨u, hu, (haccounted t).readsWaiting (haccounted u) hwaits hwaits'⟩
  · obtain ⟨u, hu, hwaits⟩ := hD t ht
    exact ⟨u, hu, hread t u hwaits⟩
  · have hstart : ∀ t ∈ D, ∃ u ∈ D, s.WaitsFor t u := fun t ht => by
      obtain ⟨u, hu, hwaits⟩ := hD t ht
      exact ⟨u, hu, hread t u hwaits⟩
    clear hcs hread hexclusive haccounted hrun hD
    induction hbs with
    | nil => simp
    | cons hstep _ ih =>
      obtain ⟨hx, hnext⟩ := stuck_step hstart hstep
      exact List.forall_mem_cons.mpr ⟨hx, ih hnext⟩

/-- Two threads take two mutexes in opposite orders. -/
theorem deadlock_iff_opposite : ∃ s : State Bool ℕ,
    (∃ as, Run (TidyStep .helloWorldCpp) (init fun _ => .data) as s) ∧
    (∀ t, ∃ u, ReadsWaiting s.log t u) ∧ ∀ bs s', Run (Step .helloWorldCpp) s bs s' → bs = [] := by
  let loc : Location := ⟨1, []⟩
  have hlock : mutexArms.1 ∈ Source.helloWorldCpp.arms := by decide
  have hrun : ∃ (as : List (Action Bool ℕ)) (s : State Bool ℕ),
      Run (TidyStep .helloWorldCpp) (init fun _ => .data) as s ∧
      ∀ t, ∃ u, s.WaitsFor t u :=
    ⟨[.lockProbe true loc mutexArms.1 .mutex [0, 7] 7, .acquire true .mutex 1,
        .lockProbe false loc mutexArms.1 .mutex [0, 8] 8, .acquire false .mutex 2,
        .lockProbe true loc mutexArms.1 .mutex [0, 8] 8,
        .lockProbe false loc mutexArms.1 .mutex [0, 7] 7], _,
      .cons ⟨.lockProbe rfl hlock rfl rfl (by decide), trivial⟩
        (.cons ⟨.acquire rfl (by decide), by change ¬ State.Guarded _ _; decide⟩
        (.cons ⟨.lockProbe rfl hlock rfl rfl (by decide), trivial⟩
        (.cons ⟨.acquire rfl (by decide), by change ¬ State.Guarded _ _; decide⟩
        (.cons ⟨.lockProbe rfl hlock rfl rfl (by decide), trivial⟩
        (.single ⟨.lockProbe rfl hlock rfl rfl (by decide), trivial⟩))))),
      fun t => ⟨!t, .mutex, if t then 8 else 7, some (if t then 2 else 3),
        by cases t <;> rfl, ⟨if t then 1 else 0, !t, .mutex, if t then 8 else 7,
          some (if t then 1 else 0)⟩, by cases t <;> decide, by cases t <;> rfl, rfl⟩⟩
  obtain ⟨as, s, hrun, hwaits⟩ := hrun
  obtain ⟨hiff, hstuck⟩ := deadlock_iff hrun Set.univ
  have hall : ∀ t ∈ (Set.univ : Set Bool), ∃ u ∈ Set.univ, ReadsWaiting s.log t u :=
    hiff.mp fun t _ => (hwaits t).imp fun u hu => ⟨trivial, hu⟩
  refine ⟨s, ⟨as, hrun⟩, fun t => (hall t trivial).imp fun u hu => hu.2, fun bs s' hbs => ?_⟩
  exact List.eq_nil_iff_forall_not_mem.mpr fun x hx => hstuck hall bs s' hbs x hx trivial

end Threads

end AtomicityViolation
