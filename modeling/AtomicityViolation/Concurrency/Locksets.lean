import Mathlib.Data.Multiset.MapFold
import AtomicityViolation.Concurrency.CriticalSections
import AtomicityViolation.Concurrency.Order
import AtomicityViolation.Library.Ledger

/-!
# The locksets read from the log

A reader of the log takes the locks of a thread to be those that it has lock records of and no later
unlock records (`lockset`). Where every acquisition and every drop is probed and no memory is
written in which a guard stands, these are the locks whose guards the thread holds, at every access
(`lockset_eq`). The address of an unlock record is loaded through the guard, and that it is the
lock's rests on the arms loading it the way the guard is built (`Source.route_arms`), wherever the
guard was moved to.
-/

namespace AtomicityViolation

/-! ## The address of a lock record -/

/-- The route by which the address of the lock is had from the operands: the acquiring functions
take it, and the guards contain it. -/
def Role.route : Role → Option Route
  | .access => none
  | .acquire kind => some (.argument kind.lockOperand)
  | .release .read => some .guardValue
  | .release .mutex | .release .write => some .guardField

/-- Every arm of either version takes the route for its operation. -/
theorem Source.route_arms (src : Source) : ∀ a ∈ src.arms, a.op.role.route = some a.route := by
  cases src <;> decide

section Addresses

variable {P : Type*} {src : Source} {arm : Arm} {kind : GuardKind} {memory : P → Cell P} {lock : P}

/-- An arm of an acquisition computes the address of the lock. -/
theorem Source.eval_acquire {args : List P} (harm : arm ∈ src.arms)
    (hrole : arm.op.role = .acquire kind) (hlock : args[kind.lockOperand]? = some lock) :
    arm.route.eval memory args = some lock := by
  have hroute := src.route_arms arm harm
  rw [hrole, Role.route, Option.some.injEq] at hroute
  rw [← hroute]
  exact hlock

/-- An arm of a release computes the address of the lock from the place of its guard. -/
theorem Source.eval_release {x : P} (harm : arm ∈ src.arms)
    (hrole : arm.op.role = .release kind) (hcell : memory x = kind.cell lock) :
    arm.route.eval memory [x] = some lock := by
  have hroute := src.route_arms arm harm
  rw [hrole] at hroute
  cases kind <;> simp only [Role.route, Option.some.injEq] at hroute <;> rw [← hroute] <;>
    simp [Route.eval, hcell, GuardKind.cell]

end Addresses

namespace Threads

open Transition (Run)
open Ledger (Mark unmatched)
open Threads.State

variable {T P : Type*} [DecidableEq T] [DecidableEq P] {src : Source} {s s' : State T P}
  {x : Action T P} {as : List (Action T P)}

/-- What a record opens or closes for a thread. -/
def Entry.mark (t : T) (e : Entry T P) : Option (Mark P) :=
  if e.tid = t then
    match e.call.op.role with
    | .acquire _ => some (.opened e.call.addr)
    | .release _ => some (.closed e.call.addr)
    | .access => none
  else none

/-- The addresses that have a lock record of the thread which no later unlock record of the thread
matches. -/
def lockset (t : T) (log : List (Entry T P)) : Multiset P :=
  unmatched (log.filterMap (Entry.mark t))

/-- The locks of guards. -/
def locksOf (gs : List (Guard T P)) : Multiset P := (gs : Multiset (Guard T P)).map Guard.lock

/-- The steps of a program that keeps to the rules: acquisitions and drops of guards are probed, and
memory is not written where a guard stands. -/
def Tidy (s : State T P) : Action T P → Prop
  | .store t _ => ∀ n x, s.pending t = .store n x → ¬ s.Guarded x
  | .write _ x _ => ¬ s.Guarded x
  | .acquire _ _ dst => ¬ s.Guarded dst
  | .lockBare _ _ _ | .unlockBare _ => False
  | _ => True

/-- The steps of such a program. -/
def TidyStep (src : Source) (s : State T P) (x : Action T P) (s' : State T P) : Prop :=
  Step src s x s' ∧ Tidy s x

/-! ## The records of a thread -/

variable {t u : T} {call : ProbeCall P} {subject : Subject T P} {kind : GuardKind}

/-- A record of another thread says nothing. -/
theorem lockset_probe_of_ne (hu : u ≠ t) :
    lockset u (s.probe t call subject).log = lockset u s.log := by
  simp [lockset, State.probe, List.filterMap_append, Entry.mark, Ne.symm hu]

/-- A record of an access says nothing. -/
theorem lockset_probe_access (h : call.op.role = .access) :
    lockset u (s.probe t call subject).log = lockset u s.log := by
  simp [lockset, State.probe, List.filterMap_append, Entry.mark, h]

/-- A lock record adds its address. -/
theorem lockset_probe_acquire (h : call.op.role = .acquire kind) :
    lockset t (s.probe t call subject).log = call.addr ::ₘ lockset t s.log := by
  simp [lockset, State.probe, List.filterMap_append, Entry.mark, h]

/-- An unlock record takes its address away once. -/
theorem lockset_probe_release (h : call.op.role = .release kind) :
    lockset t (s.probe t call subject).log = (lockset t s.log).erase call.addr := by
  simp [lockset, State.probe, List.filterMap_append, Entry.mark, h]

/-! ## Guards in memory -/

/-- The guards that are held stand at their places in memory. -/
def Placed (s : State T P) : Prop :=
  ∀ g ∈ s.held, ∃ x, s.place g.id = some x ∧ s.memory x = g.kind.cell g.lock

omit [DecidableEq T] in
/-- Writing elsewhere leaves the guards where they are. -/
theorem Placed.write {x : P} {value : Cell P} (hs : Placed s) (hx : ¬ s.Guarded x) :
    Placed (s.write x value) := by
  intro g hg
  obtain ⟨y, hplace, hcell⟩ := hs g hg
  have hy : y ≠ x := fun heq => hx ⟨g, hg, heq ▸ hplace⟩
  exact ⟨y, hplace, by simpa only [State.write, Function.update_of_ne hy] using hcell⟩

omit [DecidableEq T] in
/-- The guard of a lock that is acquired stands where it is put. -/
theorem Placed.grant {t : T} {kind : GuardKind} {lock dst : P} {record : Option ℕ}
    (hs : Placed s) (hsec : Sectioned s) (hdst : ¬ s.Guarded dst) :
    Placed (s.grant t kind lock record dst) := by
  intro g hg
  rcases List.mem_append.mp hg with hg | hg
  · obtain ⟨y, hplace, hcell⟩ := hs g hg
    have hy : y ≠ dst := fun heq => hdst ⟨g, hg, heq ▸ hplace⟩
    -- The new guard has a new number, and stands where no other one does.
    have hid : g.id ≠ s.sections.length := ne_of_lt (hsec.held_lt g hg)
    exact ⟨y, by simpa only [State.grant, Function.update_of_ne hid] using hplace,
      by simpa only [State.grant, Function.update_of_ne hy] using hcell⟩
  · rw [List.mem_singleton.mp hg]
    exact ⟨dst, by simp [State.grant]⟩

/-- Every step of a tidy program keeps the guards in place. -/
theorem Placed.step (hs : Placed s) (hsec : Sectioned s) (hstep : TidyStep src s x s') :
    Placed s' := by
  obtain ⟨hstep, htidy⟩ := hstep
  cases hstep with
  | store ht => exact hs.write (htidy _ _ ht)
  | write => exact hs.write htidy
  | acquire => exact hs.grant hsec htidy
  | @move g x dst ht hg hplace hmem =>
    intro h hh
    obtain ⟨y, hy, hcell⟩ := hs h hh
    by_cases hid : h.id = g.id
    · -- What stands at the new place is what stood at the old one.
      rw [hid, hplace, Option.some.injEq] at hy
      exact ⟨dst, by simp [hid], by rw [hmem, hy, hcell]⟩
    · exact ⟨y, by simpa only [Function.update_of_ne hid] using hy, hcell⟩
  | release => exact fun g hg => hs g (List.mem_of_mem_erase hg)
  | storeProbe => exact hs
  | load => exact hs
  | loadProbe => exact hs
  | lockProbe => exact hs
  | unlockProbe => exact hs
  | lockBare => exact absurd htidy not_false
  | unlockBare => exact absurd htidy not_false

/-- A guard that is being released is held by the thread that releases it. -/
def Releasing (s : State T P) : Prop := ∀ t g, s.pending t = .release g → g ∈ s.guardsOf t

omit [DecidableEq P] in
/-- A thread that goes elsewhere releases nothing. -/
theorem Releasing.goto {r : State T P} {t : T} {p : Pending T P} (hs : Releasing s)
    (hp : ∀ g, p ≠ .release g) (hpending : r.pending = s.pending)
    (hguards : ∀ u, u ≠ t → ∀ g ∈ s.guardsOf u, g ∈ r.guardsOf u) : Releasing (r.goto t p) := by
  intro u g hu
  by_cases hut : u = t
  · subst hut
    rw [pending_goto_self] at hu
    exact absurd hu (hp g)
  · rw [pending_goto_of_ne _ hut, hpending] at hu
    exact hguards u hut g (hs u g hu)

omit [DecidableEq P] in
/-- A thread begins to release a guard that it holds. -/
theorem Releasing.goto_release {r : State T P} {g : Guard T P} (hs : Releasing s) (hg : g ∈ s.held)
    (hpending : r.pending = s.pending) (hheld : r.held = s.held) :
    Releasing (r.goto g.tid (.release g)) := by
  intro u h hu
  have hmem : h ∈ s.guardsOf u := by
    by_cases hut : u = g.tid
    · subst hut
      rw [pending_goto_self, Pending.release.injEq] at hu
      exact hu ▸ mem_guardsOf.mpr ⟨hg, rfl⟩
    · rw [pending_goto_of_ne _ hut, hpending] at hu
      exact hs u h hu
  rw [mem_guardsOf] at hmem ⊢
  exact ⟨hheld ▸ hmem.1, hmem.2⟩

/-- Every step keeps that. -/
theorem Releasing.step (hs : Releasing s) (hstep : Step src s x s') : Releasing s' := by
  have hsame : ∀ t u : T, u ≠ t → ∀ g ∈ s.guardsOf u, g ∈ s.guardsOf u := fun _ _ _ _ hg => hg
  cases hstep with
  | storeProbe => exact hs.goto (by simp) rfl (hsame _)
  | store => exact hs.goto (by simp) rfl (hsame _)
  | load => exact hs.goto (by simp) rfl (hsame _)
  | loadProbe => exact hs.goto (by simp) rfl (hsame _)
  | write => exact hs
  | move => exact hs
  | lockProbe => exact hs.goto (by simp) rfl (hsame _)
  | lockBare => exact hs.goto (by simp) rfl (hsame _)
  | acquire =>
    exact hs.goto (by simp) rfl fun u hu g hg => by rwa [guardsOf_grant_of_ne _ hu]
  | release => exact hs.goto (by simp) rfl fun u hu g hg => by rwa [guardsOf_drop_of_ne _ hu]
  | unlockProbe ht hg => exact hs.goto_release hg rfl rfl
  | unlockBare ht hg => exact hs.goto_release hg rfl rfl

/-! ## The locksets -/

/-- What the log says of a thread that holds these locks: a lock that it is about to acquire is
there already, and one that it is about to release is no longer there. -/
def Pending.due (p : Pending T P) (locks : Multiset P) : Multiset P :=
  match p with
  | .acquire _ lock _ => lock ::ₘ locks
  | .release g => locks.erase g.lock
  | _ => locks

/-- The lockset of every thread is what the log should say. -/
def Balanced (s : State T P) : Prop :=
  ∀ t, lockset t s.log = (s.pending t).due (locksOf (s.guardsOf t))

/-- It is enough to look at the thread that goes elsewhere. -/
theorem Balanced.goto {r : State T P} {t : T} {p : Pending T P} (hs : Balanced s)
    (hpending : r.pending = s.pending) (hguards : ∀ u, u ≠ t → r.guardsOf u = s.guardsOf u)
    (hlog : ∀ u, u ≠ t → lockset u r.log = lockset u s.log)
    (ht : lockset t r.log = p.due (locksOf (r.guardsOf t))) : Balanced (r.goto t p) := by
  intro u
  by_cases hu : u = t
  · subst hu
    rw [pending_goto_self]
    exact ht
  · have hbal := hs u
    rw [← hlog u hu, ← hguards u hu, ← hpending] at hbal
    rw [pending_goto_of_ne _ hu]
    exact hbal

omit [DecidableEq T] [DecidableEq P] in
/-- The locks with one more guard. -/
theorem locksOf_concat (gs : List (Guard T P)) (g : Guard T P) :
    locksOf (gs ++ [g]) = g.lock ::ₘ locksOf gs := by
  rw [locksOf, locksOf, ← Multiset.coe_add, Multiset.map_add, Multiset.coe_singleton,
    Multiset.map_singleton, Multiset.add_comm, Multiset.singleton_add]

/-- The locks with one guard less. -/
theorem locksOf_erase {gs : List (Guard T P)} {g : Guard T P} (hg : g ∈ gs) :
    locksOf (gs.erase g) = (locksOf gs).erase g.lock := by
  rw [locksOf, locksOf, ← Multiset.coe_erase]
  exact Multiset.map_erase_of_mem Guard.lock _ hg

/-- Every step of a tidy program keeps the locksets. -/
theorem Balanced.step (hs : Balanced s) (hplaced : Placed s) (hrel : Releasing s)
    (hstep : TidyStep src s x s') : Balanced s' := by
  obtain ⟨hstep, htidy⟩ := hstep
  have hbal : ∀ t p, s.pending t = p → lockset t s.log = p.due (locksOf (s.guardsOf t)) :=
    fun t p hp => hp ▸ hs t
  cases hstep with
  | @storeProbe t loc x ht =>
    exact hs.goto rfl (fun _ _ => rfl) (fun _ hu => lockset_probe_of_ne hu)
      ((lockset_probe_access rfl).trans (hbal t .idle ht))
  | @store t n x value ht =>
    exact hs.goto rfl (fun _ _ => rfl) (fun _ _ => rfl) (hbal t (.store n x) ht)
  | @load t x ht => exact hs.goto rfl (fun _ _ => rfl) (fun _ _ => rfl) (hbal t .idle ht)
  | @loadProbe t n x loc ht =>
    exact hs.goto rfl (fun _ _ => rfl) (fun _ hu => lockset_probe_of_ne hu)
      ((lockset_probe_access rfl).trans (hbal t (.load n x) ht))
  | write => exact hs
  | move => exact hs
  | @lockProbe t loc arm kind args lock addr ht harm hrole hlock haddr =>
    -- The probe is given the operand that is acquired.
    obtain rfl := haddr lock (Source.eval_acquire harm hrole hlock)
    refine hs.goto rfl (fun _ _ => rfl) (fun _ hu => lockset_probe_of_ne hu) ?_
    have hop : (ProbeCall.probeLock loc.line loc.file arm.op addr).op.role = .acquire kind := hrole
    calc lockset t (s.probe t _ .acquisition).log
        = addr ::ₘ lockset t s.log := lockset_probe_acquire hop
      _ = addr ::ₘ locksOf (s.guardsOf t) := congrArg _ (hbal t .idle ht)
  | @acquire t kind lock dst record ht hfree =>
    refine hs.goto rfl (fun u hu => guardsOf_grant_of_ne s hu ..) (fun _ _ => rfl) ?_
    -- The lock was added to the lockset by its probe, and is now held.
    rw [guardsOf_grant_self, locksOf_concat]
    exact hbal t _ ht
  | @unlockProbe loc arm g x addr ht hg hplace harm hrole haddr =>
    -- The guard stands at its place, so the route loads the address of its lock.
    obtain ⟨y, hy, hcell⟩ := hplaced g hg
    rw [hplace, Option.some.injEq] at hy
    obtain rfl := haddr _ (Source.eval_release harm hrole (hy ▸ hcell))
    refine hs.goto rfl (fun _ _ => rfl) (fun _ hu => lockset_probe_of_ne hu) ?_
    have hop : (ProbeCall.probeLock loc.line loc.file arm.op g.lock).op.role = .release g.kind :=
      hrole
    calc lockset g.tid (s.probe g.tid _ (.release g)).log
        = (lockset g.tid s.log).erase g.lock := lockset_probe_release hop
      _ = (locksOf (s.guardsOf g.tid)).erase g.lock := congrArg _ (hbal g.tid .idle ht)
  | @release g ht =>
    refine hs.goto rfl (fun u hu => guardsOf_drop_of_ne s hu) (fun _ _ => rfl) ?_
    -- The lock was taken from the lockset by its probe, and is no longer held.
    rw [guardsOf_drop]
    calc lockset g.tid s.log
        = (locksOf (s.guardsOf g.tid)).erase g.lock := hbal g.tid _ ht
      _ = locksOf ((s.guardsOf g.tid).erase g) := (locksOf_erase (hrel _ _ ht)).symm
  | lockBare => exact absurd htidy not_false
  | unlockBare => exact absurd htidy not_false

/-- At every record of an access the lockset of its thread was that of the guards it held. -/
def Told (s : State T P) : Prop :=
  ∀ (i : ℕ) (e : Entry T P), s.log[i]? = some e → e.access.isSome = true →
    lockset e.tid (s.log.take i) = locksOf e.held

/-- It stays so when a record is written, if it is so for that record. -/
theorem Told.probe (hs : Told s)
    (h : (⟨t, call, subject, s.guardsOf t⟩ : Entry T P).access.isSome = true →
      lockset t s.log = locksOf (s.guardsOf t)) : Told (s.probe t call subject) := by
  intro i e hi he
  rcases Sections.getElem?_concat hi with hold | ⟨rfl, rfl⟩
  · have hlen := (List.getElem?_eq_some_iff.mp hold).1
    -- Before an old record stands what stood there.
    have htake : (s.probe t call subject).log.take i = s.log.take i :=
      List.take_append_of_le_length (Nat.le_of_lt hlen)
    rw [htake]
    exact hs i e hold he
  · -- Before the new one stands the whole log.
    have htake : (s.probe t call subject).log.take s.log.length = s.log := List.take_left
    rw [htake]
    exact h he

/-- Every step keeps that, if the locksets are right before it. -/
theorem Told.step (hs : Told s) (hbal : Balanced s) (hstep : Step src s x s') : Told s' := by
  cases hstep with
  | @storeProbe t loc x ht =>
    have hlockset := hbal t
    rw [ht] at hlockset
    exact hs.probe fun _ => hlockset
  | @loadProbe t n x loc ht =>
    have hlockset := hbal t
    rw [ht] at hlockset
    exact hs.probe fun _ => hlockset
  | lockProbe => exact hs.probe fun h => absurd h (by simp [Entry.access])
  | unlockProbe => exact hs.probe fun h => absurd h (by simp [Entry.access])
  | store => exact hs
  | load => exact hs
  | write => exact hs
  | lockBare => exact hs
  | acquire => exact hs
  | move => exact hs
  | unlockBare => exact hs
  | release => exact hs

/-- What holds in every state of a tidy program. -/
structure Tracked (s : State T P) : Prop where
  numbered : Numbered s
  agree : Agree s
  sectioned : Sectioned s
  placed : Placed s
  releasing : Releasing s
  balanced : Balanced s
  told : Told s

/-- It holds at the start. -/
theorem tracked_init (memory : P → Cell P) : Tracked (init memory : State T P) where
  numbered := numbered_init memory
  agree := agree_init memory
  sectioned := sectioned_init memory
  placed := by simp [Placed, init]
  releasing := by simp [Releasing, init]
  balanced := fun t => by simp [init, lockset, Pending.due, State.guardsOf, locksOf]
  told := by simp [Told, init]

/-- Every step of a tidy program keeps that. -/
theorem Tracked.step (h : Tracked s) (hstep : TidyStep src s x s') : Tracked s' where
  numbered := h.numbered.step hstep.1
  agree := h.agree.step h.numbered hstep.1
  sectioned := h.sectioned.step hstep.1
  placed := h.placed.step h.sectioned hstep
  releasing := h.releasing.step hstep.1
  balanced := h.balanced.step h.placed h.releasing hstep
  told := h.told.step h.balanced hstep.1

/-- The lockset read from the log is the real one. In a run of a tidy program, at every record of an
access, the addresses with lock records of its thread that no later unlock record matches are the
locks whose guards the thread holds, as often as it holds them: when the record is written, and when
the access takes effect. -/
theorem lockset_eq {memory : P → Cell P} (h : Run (TidyStep src) (init memory) as s) {i : ℕ}
    {e : Entry T P} {k : AccessId T} (hi : s.log[i]? = some e) (hk : e.access = some k) :
    lockset e.tid (s.log.take i) = locksOf e.held ∧
      ∀ a ∈ s.performed, a.id = k → lockset e.tid (s.log.take i) = locksOf a.held := by
  have hs : Tracked s := h.invariant (fun _ _ _ hs hstep => hs.step hstep) (tracked_init memory)
  have htold := hs.told i e hi (by rw [hk]; rfl)
  refine ⟨htold, fun a ha hak => ?_⟩
  rw [htold, hs.agree.agree e (List.mem_of_getElem? hi) a ha (hk.trans (congrArg some hak.symm))]

/-- A thread moves the guard of a mutex, acquires the guard of a reader, stores, drops the first
guard, and loads. -/
theorem lockset_eq_nested : ∃ s : State Bool ℕ,
    (∃ as, Run (TidyStep .helloWorldCpp) (init fun _ => .data) as s) ∧
    ∃ d e : Entry Bool ℕ, s.log[2]? = some d ∧ s.log[4]? = some e ∧
      d.access = some ⟨true, 0, .store⟩ ∧ e.access = some ⟨true, 1, .load⟩ ∧
      locksOf d.held = {7, 8} ∧ locksOf e.held = {8} ∧
      lockset true (s.log.take 2) = locksOf d.held ∧
      lockset true (s.log.take 4) = locksOf e.held := by
  let loc : Location := ⟨1, []⟩
  let readLock : Arm := ⟨"std4sync6rwlock15RwLock$LT$T$GT$4read", .argument 0, .callReadLock⟩
  let g : Guard Bool ℕ := ⟨0, true, .mutex, 7, some 0⟩
  let h : Guard Bool ℕ := ⟨1, true, .read, 8, some 1⟩
  have hlock : mutexArms.1 ∈ Source.helloWorldCpp.arms := by decide
  have hunlock : mutexArms.2 ∈ Source.helloWorldCpp.arms := by decide
  have hread : readLock ∈ Source.helloWorldCpp.arms := by decide
  have hrun : ∃ s : State Bool ℕ, Run (TidyStep .helloWorldCpp) (init fun _ => .data)
      [.lockProbe true loc mutexArms.1 .mutex [0, 7] 7, .acquire true .mutex 1,
        .write true 3 (.struct 7), .move g 3, .write true 1 .data,
        .lockProbe true loc readLock .read [8] 8, .acquire true .read 2, .storeProbe true loc 5,
        .store true .data, .unlockProbe loc mutexArms.2 g 7, .release g, .load true 5,
        .loadProbe true loc] s ∧
      s.log = [⟨true, .probeLock 1 [] .lock 7, .acquisition, []⟩,
        ⟨true, .probeLock 1 [] .callReadLock 8, .acquisition, [g]⟩,
        ⟨true, .probe 1 [] .store 5, .access 0, [g, h]⟩,
        ⟨true, .probeLock 1 [] .unlock 7, .release g, [g, h]⟩,
        ⟨true, .probe 1 [] .load 5, .access 1, [h]⟩] :=
    ⟨_, .cons ⟨.lockProbe rfl hlock rfl rfl (by decide), trivial⟩
      (.cons ⟨.acquire rfl (by decide), by change ¬ State.Guarded _ _; decide⟩
      (.cons ⟨.write rfl, by change ¬ State.Guarded _ _; decide⟩
      (.cons ⟨.move rfl (by decide) rfl rfl, trivial⟩
      (.cons ⟨.write rfl, by change ¬ State.Guarded _ _; decide⟩
      (.cons ⟨.lockProbe rfl hread rfl rfl (by decide), trivial⟩
      (.cons ⟨.acquire rfl (by decide), by change ¬ State.Guarded _ _; decide⟩
      (.cons ⟨.storeProbe rfl, trivial⟩ (.cons ⟨.store rfl, by rintro _ _ ⟨⟩; decide⟩
      (.cons ⟨.unlockProbe rfl (by decide) rfl hunlock rfl (by decide), trivial⟩
      (.cons ⟨.release rfl, trivial⟩ (.cons ⟨.load rfl, trivial⟩
      (.single ⟨.loadProbe rfl, trivial⟩)))))))))))), rfl⟩
  obtain ⟨s, hrun, hlog⟩ := hrun
  have hd : s.log[2]? = some ⟨true, .probe 1 [] .store 5, .access 0, [g, h]⟩ := by rw [hlog]; rfl
  have he : s.log[4]? = some ⟨true, .probe 1 [] .load 5, .access 1, [h]⟩ := by rw [hlog]; rfl
  exact ⟨s, ⟨_, hrun⟩, _, _, hd, he, rfl, rfl, by decide, by decide, (lockset_eq hrun hd rfl).1,
    (lockset_eq hrun he rfl).1⟩

end Threads

end AtomicityViolation
