import AtomicityViolation.Concurrency.Machine
import AtomicityViolation.Library.Sections
import AtomicityViolation.Library.Simulation

/-!
# Critical sections in the log

The guards of a lock exclude each other as its readers and writers do, and a record tells which
guards its thread held when it was written, so what the threads do is a run of
`Library/Sections.lean` (`Step.refine_sections`). Sections of one lock that are not both read
sections stand apart in the log (`sections_apart`). The lock record of a section stands before
everything in it, and nothing more is known of where: it is written before the lock is acquired.
-/

namespace AtomicityViolation

namespace Threads

open Transition (Run)
open Threads.State

variable {T P : Type*} {s s' : State T P} {t : T} {g h : Guard T P}

/-- The record of an access, written inside the section of `g`. -/
def Entry.AccessIn (e : Entry T P) (g : Guard T P) : Prop :=
  e.access.isSome = true ∧ g ∈ e.held

/-- Everything that was written inside the section of `g`, with the record of its release, stands
before the records of the accesses inside the section of `h`. -/
def StandsBefore (log : List (Entry T P)) (g h : Guard T P) : Prop :=
  ∀ (i j : ℕ) (d e : Entry T P), log[i]? = some d → log[j]? = some e →
    d.AccessIn g ∨ d.subject = .release g → e.AccessIn h → i < j

/-- The entry at `i` is the record of an acquisition by the thread. -/
def LockRecord (log : List (Entry T P)) (t : T) (kind : GuardKind) (i : ℕ) : Prop :=
  ∃ e, log[i]? = some e ∧ e.tid = t ∧ e.subject = .acquisition ∧ e.call.op.role = .acquire kind

/-- The lock record of `g`, if its acquisition was probed, stands before the records of the accesses
inside its section. -/
def LockedFirst (log : List (Entry T P)) (g : Guard T P) : Prop :=
  ∀ i, g.record = some i → LockRecord log g.tid g.kind i ∧
    ∀ (j : ℕ) (e : Entry T P), log[j]? = some e → e.AccessIn g → i < j

/-- A log that grows keeps its lock records. -/
theorem LockRecord.concat {log : List (Entry T P)} {kind : GuardKind} {i : ℕ} {d : Entry T P}
    (hi : LockRecord log t kind i) : LockRecord (log ++ [d]) t kind i := by
  obtain ⟨e, he, hrest⟩ := hi
  exact ⟨e, by rw [List.getElem?_append_left (List.getElem?_eq_some_iff.mp he).1, he], hrest⟩

/-- A section still comes after its lock record when a record is written. -/
theorem LockedFirst.concat {log : List (Entry T P)} {d : Entry T P} (hg : LockedFirst log g) :
    LockedFirst (log ++ [d]) g := by
  intro i hi
  obtain ⟨hrec, hbefore⟩ := hg i hi
  refine ⟨hrec.concat, fun j e hj he => ?_⟩
  rcases Sections.getElem?_concat hj with hj | ⟨rfl, -⟩
  · exact hbefore j e hj he
  · obtain ⟨_, hget, -⟩ := hrec
    exact (List.getElem?_eq_some_iff.mp hget).1

variable [DecidableEq T] [DecidableEq P] {src : Source} {x : Action T P} {as : List (Action T P)}

/-! ## What a step does -/

/-- Every acquisition that is under way in `s'`, and was probed, was so in `s` already. -/
def SameAcquisitions (s s' : State T P) : Prop :=
  ∀ t kind lock i, s'.pending t = .acquire kind lock (some i) →
    s.pending t = .acquire kind lock (some i)

/-- What a step does to the guards and the log: a record is written, a guard is granted or dropped,
or neither changes. -/
inductive GuardStep (s s' : State T P) : Prop
  | record {t : T} {call : ProbeCall P} {subject : Subject T P} :
      (∀ g, subject = .release g → g ∈ s.guardsOf t) →
      (∀ u kind lock i, s'.pending u = .acquire kind lock (some i) →
        s.pending u = .acquire kind lock (some i) ∨
        u = t ∧ i = s.log.length ∧ subject = .acquisition ∧ call.op.role = .acquire kind) →
      s'.log = s.log ++ [⟨t, call, subject, s.guardsOf t⟩] → s'.held = s.held →
      s'.sections = s.sections → GuardStep s s'
  | grant {t : T} {kind : GuardKind} {lock : P} {record : Option ℕ} :
      s.pending t = .acquire kind lock record → s.Free kind lock → SameAcquisitions s s' →
      s'.log = s.log → s'.held = s.held ++ [⟨s.sections.length, t, kind, lock, record⟩] →
      s'.sections = s.sections ++ [⟨s.sections.length, t, kind, lock, record⟩] → GuardStep s s'
  | drop {g : Guard T P} : SameAcquisitions s s' → s'.log = s.log →
      s'.held = s.held.erase g → s'.sections = s.sections → GuardStep s s'
  | other : SameAcquisitions s s' → s'.log = s.log → s'.held = s.held →
      s'.sections = s.sections → GuardStep s s'

omit [DecidableEq P] in
/-- Where a thread goes that does not begin a probed acquisition. -/
theorem State.acquire_goto {t : T} {p : Pending T P}
    (hp : ∀ kind lock i, p ≠ .acquire kind lock (some i)) : SameAcquisitions s (s.goto t p) := by
  intro u kind lock i hu
  by_cases hut : u = t
  · subst hut
    rw [pending_goto_self] at hu
    exact absurd hu (hp kind lock i)
  · rwa [pending_goto_of_ne _ hut] at hu

/-- Every step does one of these. -/
theorem Step.guardStep (hstep : Step src s x s') : GuardStep s s' := by
  have hidle : ∀ kind lock i, (Pending.idle : Pending T P) ≠ .acquire kind lock (some i) := by simp
  cases hstep with
  | storeProbe =>
    exact .record (by simp) (fun u k l i hu => .inl (acquire_goto (by simp) u k l i hu)) rfl rfl rfl
  | store => exact .other (acquire_goto hidle) rfl rfl rfl
  | load => exact .other (acquire_goto (by simp)) rfl rfl rfl
  | loadProbe =>
    exact .record (by simp) (fun u k l i hu => .inl (acquire_goto hidle u k l i hu)) rfl rfl rfl
  | write => exact .other (fun _ _ _ _ hi => hi) rfl rfl rfl
  | @lockProbe t loc arm kind args lock addr ht harm hrole =>
    refine .record (by simp) (fun u k l i hu => ?_) rfl rfl rfl
    by_cases hut : u = t
    · subst hut
      -- The acquisition keeps the place of the record that is written now.
      rw [pending_goto_self, Pending.acquire.injEq, Option.some.injEq] at hu
      exact .inr ⟨rfl, hu.2.2.symm, rfl, hu.1 ▸ hrole⟩
    · rw [pending_goto_of_ne _ hut] at hu
      exact .inl hu
  | lockBare => exact .other (acquire_goto (by simp)) rfl rfl rfl
  | acquire ht hfree => exact .grant ht hfree (acquire_goto hidle) rfl rfl rfl
  | move => exact .other (fun _ _ _ _ hi => hi) rfl rfl rfl
  | unlockProbe ht hg =>
    refine .record ?_ (fun u k l i hu => .inl (acquire_goto (by simp) u k l i hu)) rfl rfl rfl
    rintro _ ⟨⟩
    exact mem_guardsOf.mpr ⟨hg, rfl⟩
  | unlockBare => exact .other (acquire_goto (by simp)) rfl rfl rfl
  | release => exact .drop (acquire_goto hidle) rfl rfl rfl

/-! ## The invariant -/

/-- What holds in every state: guards are numbered in the order of their acquisition, the record of
a release tells of the guard that is released, and a section comes after its lock record. -/
structure Sectioned (s : State T P) : Prop where
  sections_lt : ∀ g ∈ s.sections, g.id < s.sections.length
  held_lt : ∀ g ∈ s.held, g.id < s.sections.length
  told_lt : ∀ e ∈ s.log, ∀ g ∈ e.held, g.id < s.sections.length
  released : ∀ e ∈ s.log, ∀ g, e.subject = .release g → g ∈ e.held
  acquiring : ∀ t kind lock i, s.pending t = .acquire kind lock (some i) →
    LockRecord s.log t kind i
  lockedFirst : ∀ g ∈ s.sections, LockedFirst s.log g

omit [DecidableEq T] [DecidableEq P] in
/-- It holds at the start. -/
theorem sectioned_init (memory : P → Cell P) : Sectioned (init memory : State T P) := by
  constructor <;> simp [init]

omit [DecidableEq T] [DecidableEq P] in
/-- A step keeps it that writes no record and grants no guard. -/
theorem Sectioned.of_same (hs : Sectioned s) (hacq : SameAcquisitions s s')
    (hlog : s'.log = s.log) (hheld : ∀ g ∈ s'.held, g ∈ s.held)
    (hsec : s'.sections = s.sections) : Sectioned s' := by
  constructor <;> simp only [hlog, hsec]
  · exact hs.sections_lt
  · exact fun g hg => hs.held_lt g (hheld g hg)
  · exact hs.told_lt
  · exact hs.released
  · exact fun t kind lock i hi => hs.acquiring t kind lock i (hacq t kind lock i hi)
  · exact hs.lockedFirst

/-- Every step keeps the invariant. -/
theorem Sectioned.step (hs : Sectioned s) (hstep : Step src s x s') : Sectioned s' := by
  cases hstep.guardStep with
  | @record t call subject hrelease hacq hlog hheld hsec =>
    constructor <;> simp only [hlog, hheld, hsec]
    · exact hs.sections_lt
    · exact hs.held_lt
    · intro e he g hg
      rcases List.mem_append.mp he with he | he
      · exact hs.told_lt e he g hg
      · rw [List.mem_singleton.mp he] at hg
        exact hs.held_lt g (mem_guardsOf.mp hg).1
    · intro e he g hg
      rcases List.mem_append.mp he with he | he
      · exact hs.released e he g hg
      · rw [List.mem_singleton.mp he] at hg ⊢
        exact hrelease g hg
    · intro u kind lock i hu
      -- An acquisition was under way before, or its lock record is the new one.
      rcases hacq u kind lock i hu with hold | ⟨rfl, rfl, rfl, hrole⟩
      · exact (hs.acquiring u kind lock i hold).concat
      · exact ⟨_, List.getElem?_concat_length, rfl, rfl, hrole⟩
    · exact fun g hg => (hs.lockedFirst g hg).concat
  | @grant t kind lock record ht hfree hacq hlog hheld hsec =>
    have hlen : ∀ n, n < s.sections.length → n < s.sections.length + 1 := fun _ => Nat.lt_succ_of_lt
    constructor <;> simp only [hlog, hheld, hsec, List.length_append, List.length_singleton]
    · intro g hg
      rcases List.mem_append.mp hg with hg | hg
      · exact hlen _ (hs.sections_lt g hg)
      · rw [List.mem_singleton.mp hg]
        exact Nat.lt_succ_self _
    · intro g hg
      rcases List.mem_append.mp hg with hg | hg
      · exact hlen _ (hs.held_lt g hg)
      · rw [List.mem_singleton.mp hg]
        exact Nat.lt_succ_self _
    · -- The log is as it was, and it tells of the guards granted before.
      exact fun e he g hg => hlen _ (hs.told_lt e he g hg)
    · exact hs.released
    · exact fun t kind lock i hi => hs.acquiring t kind lock i (hacq t kind lock i hi)
    · intro g hg
      rcases List.mem_append.mp hg with hg | hg
      · exact hs.lockedFirst g hg
      · -- The lock record is there, and no record tells of the guard, whose number is new.
        intro i hi
        rw [List.mem_singleton.mp hg] at hi ⊢
        obtain rfl : record = some i := hi
        refine ⟨hs.acquiring t kind lock i ht, fun j e hj he => ?_⟩
        exact absurd (hs.told_lt e (List.mem_of_getElem? hj) _ he.2) (lt_irrefl _)
  | drop hacq hlog hheld hsec =>
    exact hs.of_same hacq hlog (fun g hg => List.mem_of_mem_erase (hheld ▸ hg)) hsec
  | other hacq hlog hheld hsec =>
    exact hs.of_same hacq hlog (fun g hg => hheld ▸ hg) hsec

/-! ## Sections of one lock -/

/-- What is held, what was granted, and the records. -/
def State.sectionState (s : State T P) : Sections.State (Guard T P) (Entry T P) :=
  ⟨s.held, s.sections, s.log⟩

/-- A step grants or drops a guard or writes a record, or changes nothing. -/
theorem Step.refine_sections (hs : Sectioned s) (hstep : Step src s x s') :
    ∃ bs, Run (Sections.Step Guard.Excludes Entry.held) s.sectionState bs s'.sectionState := by
  unfold State.sectionState
  cases hstep.guardStep with
  | record _ _ hlog hheld hsec =>
    rw [hlog, hheld, hsec]
    exact ⟨_, .single (.record fun g hg => (mem_guardsOf.mp hg).1)⟩
  | grant _ hfree _ hlog hheld hsec =>
    rw [hlog, hheld, hsec]
    refine ⟨_, .single (.grant (fun hmem => lt_irrefl _ (hs.sections_lt _ hmem)) ?_)⟩
    -- The lock is free for this kind, so no guard that is held excludes the new one.
    rintro g hg ⟨hlock, hex⟩
    rw [hfree g hg hlock] at hex
    cases hex
  | drop _ hlog hheld hsec =>
    rw [hlog, hheld, hsec]
    exact ⟨_, .single .drop⟩
  | other _ hlog hheld hsec =>
    rw [hlog, hheld, hsec]
    exact ⟨[], .nil _⟩

/-- What the threads do is a run of sections. -/
theorem run_sections {memory : P → Cell P} (hrun : Run (Step src) (init memory) as s) :
    Sectioned s ∧
      ∃ bs, Run (Sections.Step Guard.Excludes Entry.held) Sections.init bs s.sectionState := by
  have hstep : ∀ (s : State T P) (r : Sections.State (Guard T P) (Entry T P)) (x : Action T P)
      (s' : State T P), Sectioned s ∧ r = s.sectionState → Step src s x s' →
      ∃ bs r', Run (Sections.Step Guard.Excludes Entry.held) r bs r' ∧
        Sectioned s' ∧ r' = s'.sectionState := by
    rintro s _ x s' ⟨hs, rfl⟩ hstep
    obtain ⟨bs, hbs⟩ := hstep.refine_sections hs
    exact ⟨bs, _, hbs, hs.step hstep, rfl⟩
  obtain ⟨bs, _, hbs, hs, rfl⟩ := hrun.refine hstep ⟨sectioned_init memory, rfl⟩
  exact ⟨hs, bs, hbs⟩

omit [DecidableEq T] [DecidableEq P] in
/-- Records that stand apart in the sense of the sections do so in the log. -/
theorem Sectioned.standsBefore (hs : Sectioned s) (hap : Sections.Apart Entry.held s.log g h) :
    StandsBefore s.log g h := by
  intro i j d e hi hj hd he
  refine hap i j d e hi hj ?_ he.2
  rcases hd with hd | hd
  · exact hd.2
  · exact hs.released d (List.mem_of_getElem? hi) g hd

/-- Critical sections stay apart in the log. Of two sections by different threads on one lock that
are not both read sections, everything that was written inside the one, with the record of its
release, stands before the records of the accesses inside the other; and the lock record of either
stands before the records of its accesses. -/
theorem sections_apart {memory : P → Cell P} (hrun : Run (Step src) (init memory) as s)
    (hg : g ∈ s.sections) (hh : h ∈ s.sections) (htid : g.tid ≠ h.tid) (hex : g.Excludes h) :
    (StandsBefore s.log g h ∨ StandsBefore s.log h g) ∧
      LockedFirst s.log g ∧ LockedFirst s.log h := by
  obtain ⟨hs, bs, hbs⟩ := run_sections hrun
  have hne : g ≠ h := fun heq => htid (congrArg Guard.tid heq)
  have hapart := Sections.records_apart hbs hg hh hne hex hex.symm
  exact ⟨hapart.imp hs.standsBefore hs.standsBefore, hs.lockedFirst g hg, hs.lockedFirst h hh⟩

/-- The arm of `Mutex::lock` at an invoke, and that of the drop of its guard. -/
def mutexArms : Arm × Arm :=
  (⟨"std4sync5mutex14Mutex$LT$T$GT$4lock", .argument 1, .lock⟩,
   ⟨"drop_in_place$LT$std..sync..mutex..MutexGuard", .guardField, .unlock⟩)

/-- Two threads with a section each on a mutex. The second one probes its acquisition before the
first one does anything in its section. -/
theorem sections_apart_mutex : ∃ s : State Bool ℕ,
    (∃ as, Run (Step .helloWorldCpp) (init fun _ => .data) as s) ∧
    s.log.map (fun e => (e.tid, e.call.op)) = [(true, .lock), (false, .lock), (true, .store),
      (true, .unlock), (false, .store), (false, .unlock)] ∧
    (StandsBefore s.log ⟨0, true, .mutex, 7, some 0⟩ ⟨1, false, .mutex, 7, some 1⟩ ∨
      StandsBefore s.log ⟨1, false, .mutex, 7, some 1⟩ ⟨0, true, .mutex, 7, some 0⟩) ∧
    LockedFirst s.log ⟨0, true, .mutex, 7, some 0⟩ ∧
    LockedFirst s.log ⟨1, false, .mutex, 7, some 1⟩ := by
  let loc : Location := ⟨1, []⟩
  let g : Guard Bool ℕ := ⟨0, true, .mutex, 7, some 0⟩
  let h : Guard Bool ℕ := ⟨1, false, .mutex, 7, some 1⟩
  have hlock : mutexArms.1 ∈ Source.helloWorldCpp.arms := by decide
  have hunlock : mutexArms.2 ∈ Source.helloWorldCpp.arms := by decide
  have hrun : ∃ s : State Bool ℕ, Run (Step .helloWorldCpp) (init fun _ => .data)
      [.lockProbe true loc mutexArms.1 .mutex [0, 7] 7,
        .lockProbe false loc mutexArms.1 .mutex [0, 7] 7, .acquire true .mutex 1,
        .storeProbe true loc 5, .store true .data, .unlockProbe loc mutexArms.2 g 7, .release g,
        .acquire false .mutex 2, .storeProbe false loc 5, .store false .data,
        .unlockProbe loc mutexArms.2 h 7, .release h] s ∧ s.sections = [g, h] ∧
      s.log.map (fun e => (e.tid, e.call.op)) = [(true, .lock), (false, .lock), (true, .store),
        (true, .unlock), (false, .store), (false, .unlock)] :=
    ⟨_, .cons (.lockProbe rfl hlock rfl rfl (by decide))
      (.cons (.lockProbe rfl hlock rfl rfl (by decide))
      (.cons (.acquire rfl (by decide)) (.cons (.storeProbe rfl) (.cons (.store rfl)
      (.cons (.unlockProbe rfl (by decide) rfl hunlock rfl (by decide)) (.cons (.release rfl)
      (.cons (.acquire rfl (by decide)) (.cons (.storeProbe rfl) (.cons (.store rfl)
      (.cons (.unlockProbe rfl (by decide) rfl hunlock rfl (by decide))
      (.single (.release rfl)))))))))))), rfl, rfl⟩
  obtain ⟨s, hrun, hsec, hlog⟩ := hrun
  refine ⟨s, ⟨_, hrun⟩, hlog, sections_apart hrun (g := g) (h := h) ?_ ?_ ?_ ?_⟩
  · rw [hsec]; decide
  · rw [hsec]; decide
  · decide
  · exact ⟨rfl, rfl⟩

end Threads

end AtomicityViolation
