import AtomicityViolation.Concurrency.Locksets

/-!
# The unlock records of a lock

A lock record is written before its lock is acquired, and so the lock records of a lock can stand in
another order than its critical sections (`sections_apart_mutex`). An unlock record is written
while the lock is still held. So where acquisitions and drops are probed, the unlock records tell
of the sections that have ended, each once (`unlocked_iff`), and of two sections that exclude each
other in the order in which they were begun (`unlocked_order`).
-/

namespace AtomicityViolation

namespace Threads

open Transition (Run)
open ListOrder (Before eq_of_before before_filter_iff)
open Threads.State

variable {T P : Type*}

/-- The guard that a record says is released. -/
def Entry.released (e : Entry T P) : Option (Guard T P) :=
  match e.subject with
  | .release g => some g
  | _ => none

/-- The guards with unlock records, in the order of these. -/
def State.unlocked (s : State T P) : List (Guard T P) := s.log.filterMap Entry.released

/-- The thread of the guard is releasing it. -/
def State.Releases (s : State T P) (g : Guard T P) : Prop := s.pending g.tid = .release g

/-- A record has the operation of what it is about, and that of a release the lock of its guard. -/
def Entry.Truthful (e : Entry T P) : Prop :=
  match e.subject with
  | .access _ => e.call.op.role = .access
  | .acquisition => ∃ kind, e.call.op.role = .acquire kind
  | .release g => e.call.op.role = .release g.kind ∧ e.tid = g.tid ∧ e.call.addr = g.lock

variable [DecidableEq T] {src : Source} {s s' : State T P}

/-! ## What a step does -/

/-- What a step does to the sections and their unlock records: a release is recorded, a guard is
granted or dropped, or nothing changes. -/
inductive UnlockStep [DecidableEq P] (s s' : State T P) : Prop
  | records {g : Guard T P} : g ∈ s.held → ¬ s.Releases g →
      (∀ h, s'.Releases h ↔ h = g ∨ s.Releases h) → s'.unlocked = s.unlocked ++ [g] →
      s'.held = s.held → s'.sections = s.sections → UnlockStep s s'
  | grant {g : Guard T P} : g ∉ s.sections → (∀ h, s'.Releases h ↔ s.Releases h) →
      s'.unlocked = s.unlocked → s'.held = s.held ++ [g] → s'.sections = s.sections ++ [g] →
      UnlockStep s s'
  | drop {g : Guard T P} : s.Releases g → (∀ h, s'.Releases h ↔ s.Releases h ∧ h ≠ g) →
      s'.unlocked = s.unlocked → s'.held = s.held.erase g → s'.sections = s.sections →
      UnlockStep s s'
  | other : (∀ h, s'.Releases h ↔ s.Releases h) → s'.unlocked = s.unlocked → s'.held = s.held →
      s'.sections = s.sections → UnlockStep s s'

/-- What is released after a thread that released nothing went elsewhere. -/
theorem State.releases_goto {r : State T P} {t : T} {p : Pending T P}
    (hpending : r.pending = s.pending) (ht : ∀ g, s.pending t ≠ .release g)
    (hp : ∀ g, p ≠ .release g) (h : Guard T P) : (r.goto t p).Releases h ↔ s.Releases h := by
  unfold State.Releases
  by_cases hh : h.tid = t
  · simp [hh, hp, ht]
  · rw [pending_goto_of_ne _ hh, hpending]

/-- What is released after a thread that released nothing began to release a guard. -/
theorem State.releases_goto_release {r : State T P} {g : Guard T P}
    (hpending : r.pending = s.pending) (ht : ∀ h, s.pending g.tid ≠ .release h) (h : Guard T P) :
    (r.goto g.tid (.release g)).Releases h ↔ h = g ∨ s.Releases h := by
  unfold State.Releases
  by_cases hh : h.tid = g.tid
  · simp [hh, ht, eq_comm]
  · have hne : h ≠ g := fun heq => hh (congrArg Guard.tid heq)
    rw [pending_goto_of_ne _ hh, hpending]
    simp [hne]

/-- A record of something else. -/
theorem State.unlocked_probe_of_none {t : T} {call : ProbeCall P} {subject : Subject T P}
    (h : ∀ g, subject ≠ .release g) : (s.probe t call subject).unlocked = s.unlocked := by
  cases subject with
  | release g => exact absurd rfl (h g)
  | access | acquisition => simp [State.unlocked, State.probe, Entry.released]

variable [DecidableEq P] {x : Action T P} {as : List (Action T P)}

/-- Every step of a tidy program does one of these. -/
theorem TidyStep.unlockStep (hs : Sectioned s) (hstep : TidyStep src s x s') : UnlockStep s s' := by
  obtain ⟨hstep, htidy⟩ := hstep
  -- A thread that is at another place releases nothing.
  have hnot : ∀ {t : T} {p : Pending T P}, s.pending t = p → (∀ g, p ≠ .release g) →
      ∀ g, s.pending t ≠ .release g := fun ht hp g => ht ▸ hp g
  cases hstep with
  | storeProbe ht =>
    exact .other (releases_goto rfl (hnot ht (by simp)) (by simp))
      (unlocked_probe_of_none (by simp)) rfl rfl
  | store ht => exact .other (releases_goto rfl (hnot ht (by simp)) (by simp)) rfl rfl rfl
  | load ht => exact .other (releases_goto rfl (hnot ht (by simp)) (by simp)) rfl rfl rfl
  | loadProbe ht =>
    exact .other (releases_goto rfl (hnot ht (by simp)) (by simp))
      (unlocked_probe_of_none (by simp)) rfl rfl
  | write => exact .other (fun _ => Iff.rfl) rfl rfl rfl
  | move => exact .other (fun _ => Iff.rfl) rfl rfl rfl
  | lockProbe ht =>
    exact .other (releases_goto rfl (hnot ht (by simp)) (by simp))
      (unlocked_probe_of_none (by simp)) rfl rfl
  | acquire ht =>
    refine .grant (fun hmem => ?_) (releases_goto rfl (hnot ht (by simp)) (by simp)) rfl rfl rfl
    exact lt_irrefl _ (hs.sections_lt _ hmem)
  | @unlockProbe loc arm g y addr ht hg hplace harm hrole haddr =>
    have hidle := hnot ht (by simp)
    exact .records hg (hidle g) (releases_goto_release rfl hidle)
      (by simp [State.unlocked, State.probe, State.goto, Entry.released]) rfl rfl
  | @release g ht =>
    refine .drop ht (fun h => ?_) rfl rfl rfl
    unfold State.Releases
    by_cases hh : h.tid = g.tid
    · simp [hh, ht, eq_comm]
    · have hne : h ≠ g := fun heq => hh (congrArg Guard.tid heq)
      rw [pending_goto_of_ne _ hh]
      simp [hne, State.drop]
  | lockBare => exact absurd htidy not_false
  | unlockBare => exact absurd htidy not_false

/-- Every record of a tidy program is truthful. -/
theorem truthful_step (hplaced : Placed s) (hstep : TidyStep src s x s')
    (hs : ∀ e ∈ s.log, e.Truthful) : ∀ e ∈ s'.log, e.Truthful := by
  obtain ⟨hstep, htidy⟩ := hstep
  have hprobe : ∀ {t : T} {call : ProbeCall P} {subject : Subject T P},
      Entry.Truthful ⟨t, call, subject, s.guardsOf t⟩ →
      ∀ e ∈ (s.probe t call subject).log, e.Truthful := fun h =>
    List.forall_mem_append.mpr ⟨hs, List.forall_mem_singleton.mpr h⟩
  cases hstep with
  | storeProbe | loadProbe => exact hprobe rfl
  | @lockProbe t loc arm kind args lock addr ht harm hrole => exact hprobe ⟨kind, hrole⟩
  | @unlockProbe loc arm g y addr ht hg hplace harm hrole haddr =>
    -- The guard stands at its place, so the route loads the address of its lock.
    obtain ⟨z, hz, hcell⟩ := hplaced g hg
    rw [hplace, Option.some.injEq] at hz
    exact hprobe ⟨hrole, rfl, haddr _ (Source.eval_release harm hrole (hz ▸ hcell))⟩
  | store | load | write | move | acquire | release => exact hs
  | lockBare => exact absurd htidy not_false
  | unlockBare => exact absurd htidy not_false

/-! ## The invariant -/

/-- What holds in every state: the unlock records are of the sections that have ended, and of those
whose release is under way. -/
structure Unlocked (s : State T P) : Prop where
  sectioned : Sectioned s
  placed : Placed s
  truthful : ∀ e ∈ s.log, e.Truthful
  held_granted : ∀ g ∈ s.held, g ∈ s.sections
  held_nodup : s.held.Nodup
  releases_held : ∀ g, s.Releases g → g ∈ s.held
  nodup : s.unlocked.Nodup
  mem : ∀ g, g ∈ s.unlocked ↔ g ∈ s.sections ∧ (g ∈ s.held → s.Releases g)

omit [DecidableEq T] [DecidableEq P] in
/-- It holds at the start. -/
theorem unlocked_init (memory : P → Cell P) : Unlocked (init memory : State T P) where
  sectioned := sectioned_init memory
  placed := by simp [Placed, init]
  truthful := by simp [init]
  held_granted := by simp [init]
  held_nodup := by simp [init]
  releases_held := by simp [init, State.Releases]
  nodup := by simp [init, State.unlocked]
  mem := by simp [init, State.unlocked]

/-- Every step of a tidy program keeps that. -/
theorem Unlocked.step (h : Unlocked s) (hstep : TidyStep src s x s') : Unlocked s' := by
  have hsectioned := h.sectioned.step hstep.1
  have hplaced := h.placed.step h.sectioned hstep
  have htruthful := truthful_step h.placed hstep h.truthful
  have hcase := hstep.unlockStep h.sectioned
  obtain ⟨-, -, -, hgranted, hheld, hreleases, hnodup, hmem⟩ := h
  cases hcase with
  | records | grant | drop | other =>
    refine ⟨hsectioned, hplaced, htruthful, ?_, ?_, ?_, ?_, ?_⟩ <;>
      grind [List.Nodup.mem_erase_iff, List.Nodup.erase]

/-! ## The sections of a lock -/

/-- The invariant, the order and the sections at the end of a run. -/
theorem unlocked_run {memory : P → Cell P} (hrun : Run (TidyStep src) (init memory) as s) :
    Unlocked s ∧ s.sections.Nodup ∧ ∀ g h, Before s.sections g h → g.Excludes h → h ∈ s.unlocked →
      Before s.unlocked g h := by
  have hs : Unlocked s :=
    hrun.invariant (fun _ _ _ hs hstep => hs.step hstep) (unlocked_init memory)
  obtain ⟨hsectioned, bs, hbs⟩ := run_sections (hrun.mono fun _ _ _ h => h.1)
  have hsep := Sections.separated_run hbs
  refine ⟨hs, Sections.nodup_granted hbs, fun g h hgh hex hh => ?_⟩
  -- The first one is no longer held, so its release is recorded.
  have hpassed : g ∉ s.held := hsep.passed g h hgh hex
  have hg : g ∈ s.unlocked := (hs.mem g).mpr ⟨hgh.left_mem, fun hmem => absurd hmem hpassed⟩
  refine (hsep.apart g h hgh hex).before (fun e he k hk => ?_) hg hh
  refine hsectioned.released e he k ?_
  unfold Entry.released at hk
  cases hsubject : e.subject <;> simp only [hsubject] at hk <;> cases hk
  rfl

variable {y : P}

/-- The sections on a lock that have ended. -/
def State.ended (s : State T P) (y : P) : List (Guard T P) :=
  s.sections.filter fun g => decide (g.lock = y ∧ g ∉ s.held)

/-- When all threads are between operations, the unlock records of a lock tell of the sections on it
that have ended, each once. -/
theorem unlocked_perm {memory : P → Cell P} (hrun : Run (TidyStep src) (init memory) as s)
    (hidle : ∀ t, s.pending t = .idle) (y : P) :
    (s.unlocked.filter fun g => decide (g.lock = y)).Perm (s.ended y) := by
  obtain ⟨hs, hnodup, -⟩ := unlocked_run hrun
  refine (List.perm_ext_iff_of_nodup (hs.nodup.filter _) (hnodup.filter _)).mpr fun g => ?_
  have hnot : ¬ s.Releases g := by
    unfold State.Releases
    rw [hidle]
    simp
  simp only [List.mem_filter, hs.mem, hnot, decide_eq_true_eq, imp_false]
  tauto

/-- If the sections on the lock exclude each other, then the unlock records tell of them in the
order in which they were begun. -/
theorem unlocked_eq {memory : P → Cell P} (hrun : Run (TidyStep src) (init memory) as s)
    (hidle : ∀ t, s.pending t = .idle) (hex : ∀ g ∈ s.sections, ∀ h ∈ s.sections, g.lock = y →
      h.lock = y → g.kind.excludes h.kind = true) :
    (s.unlocked.filter fun g => decide (g.lock = y)) = s.ended y := by
  obtain ⟨hs, hnodup, horder⟩ := unlocked_run hrun
  have hperm := unlocked_perm hrun hidle y
  refine (eq_of_before (hnodup.filter _) (hs.nodup.filter _) (fun g => hperm.mem_iff.symm)
    fun g h hgh => ?_).symm
  obtain ⟨hbefore, -, -⟩ := before_filter_iff.mp hgh
  obtain ⟨hg, hgy⟩ := List.mem_filter.mp (hperm.mem_iff.mpr hgh.left_mem)
  obtain ⟨hh, hhy⟩ := List.mem_filter.mp (hperm.mem_iff.mpr hgh.right_mem)
  refine before_filter_iff.mpr ⟨horder g h hbefore ⟨?_, ?_⟩ hh, hgy, hhy⟩
  · exact (of_decide_eq_true hgy).trans (of_decide_eq_true hhy).symm
  · exact hex g hbefore.left_mem h hbefore.right_mem (of_decide_eq_true hgy)
      (of_decide_eq_true hhy)

end Threads

end AtomicityViolation
