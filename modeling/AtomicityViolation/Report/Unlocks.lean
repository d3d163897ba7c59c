import AtomicityViolation.Concurrency.Unlocks
import AtomicityViolation.Report.Guarded

/-!
# Critical sections in the report

The block of a lock lists its lock and unlock records. The unlock records of the block are the
critical sections on the lock that have ended, and of two that exclude each other the one that was
begun first stands first (`report_unlocks`). So where a thread leaves a lock and takes it again, and
another thread has a section between the two, the block shows it: that is the atomicity violation
that `atom.py` is run for.
-/

namespace AtomicityViolation

namespace Atom

open Transition (Run)
open ListOrder (Before before_filter_iff)
open Threads (Entry TidyStep init)

variable {T P : Type*} [DecidableEq T] [DecidableEq P] (fmt : PointerFormat P) (self : T → P)

/-- The thread ids and the kinds of guards of the unlock records, in order. -/
def unlocks (rs : List (Record P)) : List (P × GuardKind) :=
  rs.filterMap fun r =>
    match r.op.role with
    | .release kind => some (r.tid, kind)
    | _ => none

omit [DecidableEq T] in
/-- The unlock records of a lock, in a log of truthful records. -/
theorem unlocks_truthful {log : List (Entry T P)} (h : ∀ e ∈ log, e.Truthful) (y : P) :
    unlocks (recordsOf (recordsOfLog self log) y) =
      ((log.filterMap Entry.released).filter fun g => decide (g.lock = y)).map fun g =>
        (self g.tid, g.kind) := by
  induction log with
  | nil => rfl
  | cons e log ih =>
    obtain ⟨he, hlog⟩ := List.forall_mem_cons.mp h
    have hcons : recordsOf (recordsOfLog self (e :: log)) y =
        (if e.call.addr = y then [e.call.record (self e.tid)] else []) ++
          recordsOf (recordsOfLog self log) y := by
      by_cases hy : e.call.addr = y <;> simp [recordsOf, recordsOfLog, hy]
    have hop : (e.call.record (self e.tid)).op = e.call.op := by cases e.call <;> rfl
    rw [hcons, unlocks, List.filterMap_append, ← unlocks, ← unlocks, ih hlog]
    -- The record is of an unlock of the address, or it is not in the lists.
    obtain ⟨t, call, subject, held⟩ := e
    cases subject with
    | access n =>
      have hrole : call.op.role = .access := he
      by_cases hy : call.addr = y <;> simp [unlocks, Entry.released, List.filterMap_cons, hy, hop,
        hrole]
    | acquisition =>
      obtain ⟨kind, hrole⟩ : ∃ kind, call.op.role = .acquire kind := he
      by_cases hy : call.addr = y <;> simp [unlocks, Entry.released, List.filterMap_cons, hy, hop,
        hrole]
    | release g =>
      obtain ⟨hrole, rfl, haddr⟩ : call.op.role = .release g.kind ∧ t = g.tid ∧
        call.addr = g.lock := he
      by_cases hy : g.lock = y <;> simp [unlocks, Entry.released, hy, haddr, hop, hrole]

/-- The report of a lock. When the threads are between operations, `atom.py` raises nothing for the
log. The unlock records in the block of a lock are the sections on it that have ended, one for each,
with the thread and the kind of the guard. Of two that exclude each other the one that was begun
first stands first, and if all sections on the lock exclude each other, then they stand in the order
in which they were begun. The block is printed if threads with different ids had sections. -/
theorem report_unlocks {src : Source} {memory : P → Cell P} {as : List (Threads.Action T P)}
    {s : Threads.State T P} (hrun : Run (TidyStep src) (init memory) as s)
    (hidle : ∀ t, s.pending t = .idle) (hclean : ∀ e ∈ s.log, Clean e.call.file) (y : P) :
    ∃ (A : List P) (gs : List (Guard T P)),
      run (fmt.log (recordsOfLog self s.log)) =
        .ok (A.flatMap (block fmt (recordsOfLog self s.log))) ∧ A.Nodup ∧
      unlocks (recordsOf (recordsOfLog self s.log) y) = gs.map (fun g => (self g.tid, g.kind)) ∧
      gs.Perm (s.ended y) ∧
      (∀ g ∈ gs, ∀ h ∈ gs, Before s.sections g h → g.Excludes h → Before gs g h) ∧
      ((∀ g ∈ s.sections, ∀ h ∈ s.sections, g.lock = y → h.lock = y →
        g.kind.excludes h.kind = true) → gs = s.ended y) ∧
      ((∃ g ∈ gs, ∃ h ∈ gs, self g.tid ≠ self h.tid) → y ∈ A) := by
  obtain ⟨hs, -, horder⟩ := Threads.unlocked_run hrun
  have hnames : ∀ r ∈ recordsOfLog self s.log, Clean r.file := by
    intro r hr
    obtain ⟨e, he, rfl⟩ := List.mem_map.mp hr
    rw [ProbeCall.record_file]
    exact hclean e he
  refine ⟨_, s.unlocked.filter fun g => decide (g.lock = y), run_log fmt hnames,
    (Dict.nodup_eraseDups _).filter _, unlocks_truthful self hs.truthful y,
    Threads.unlocked_perm hrun hidle y, fun g hg h hh hgh hex => ?_,
    Threads.unlocked_eq hrun hidle, ?_⟩
  · obtain ⟨-, hgy⟩ := List.mem_filter.mp hg
    obtain ⟨hh, hhy⟩ := List.mem_filter.mp hh
    exact before_filter_iff.mpr ⟨horder g h hgh hex hh, hgy, hhy⟩
  · rintro ⟨g, hg, h, hh, hne⟩
    -- Each of the two has a record of the address.
    have hrecord : ∀ k ∈ s.unlocked.filter fun g => decide (g.lock = y),
        ∃ r ∈ recordsOfLog self s.log, r.addr = y ∧ r.tid = self k.tid := fun k hk => by
      have hmem : (self k.tid, k.kind) ∈ unlocks (recordsOf (recordsOfLog self s.log) y) := by
        rw [unlocks_truthful self hs.truthful]
        exact List.mem_map_of_mem hk
      obtain ⟨r, hr, hrk⟩ := List.mem_filterMap.mp hmem
      obtain ⟨hr, hry⟩ := List.mem_filter.mp hr
      refine ⟨r, hr, of_decide_eq_true hry, ?_⟩
      cases hrole : r.op.role <;> simp [hrole] at hrk
      exact hrk.1
    obtain ⟨r, hr, hry, hrt⟩ := hrecord g hg
    obtain ⟨r', hr', hry', hrt'⟩ := hrecord h hh
    exact mem_reported.mpr ⟨r, hr, r', hr', hry, hry', by rw [hrt, hrt']; exact hne⟩

/-- The guards of three sections on the mutex `7`: of one thread, of another one, and of the first
one again. -/
def sectionGuard (n : ℕ) (t : Bool) (record : ℕ) : Guard Bool ℕ := ⟨n, t, .mutex, 7, some record⟩

/-- A thread is interrupted between two sections on a mutex. Its second lock record stands before
the lock record of the other thread, and the unlock records are in the order of the sections. -/
theorem report_unlocks_interrupted : ∃ s : Threads.State Bool ℕ,
    (∃ as, Run (TidyStep .helloWorldCpp) (init fun _ => .data) as s) ∧
    s.log.map (fun e => (e.tid, e.call.op)) = [(true, .lock), (true, .unlock), (true, .lock),
      (false, .lock), (false, .unlock), (true, .unlock)] ∧
    ∃ A : List ℕ, 7 ∈ A ∧
      run (glibcPointer.log (recordsOfLog (fun t => if t then 1 else 2) s.log)) =
        .ok (A.flatMap (block glibcPointer (recordsOfLog (fun t => if t then 1 else 2) s.log))) ∧
      unlocks (recordsOf (recordsOfLog (fun t => if t then 1 else 2) s.log) 7) =
        [(1, .mutex), (2, .mutex), (1, .mutex)] := by
  let loc : Threads.Location := ⟨1, []⟩
  let self : Bool → ℕ := fun t => if t then 1 else 2
  let g : Guard Bool ℕ := sectionGuard 0 true 0
  let h : Guard Bool ℕ := sectionGuard 1 false 3
  let k : Guard Bool ℕ := sectionGuard 2 true 2
  have hlock : Threads.mutexArms.1 ∈ Source.helloWorldCpp.arms := by decide
  have hunlock : Threads.mutexArms.2 ∈ Source.helloWorldCpp.arms := by decide
  have hrun : ∃ s : Threads.State Bool ℕ, Run (TidyStep .helloWorldCpp) (init fun _ => .data)
      [.lockProbe true loc Threads.mutexArms.1 .mutex [0, 7] 7, .acquire true .mutex 1,
        .unlockProbe loc Threads.mutexArms.2 g 7, .release g,
        .lockProbe true loc Threads.mutexArms.1 .mutex [0, 7] 7,
        .lockProbe false loc Threads.mutexArms.1 .mutex [0, 7] 7, .acquire false .mutex 2,
        .unlockProbe loc Threads.mutexArms.2 h 7, .release h, .acquire true .mutex 3,
        .unlockProbe loc Threads.mutexArms.2 k 7, .release k] s ∧
      (∀ t, s.pending t = .idle) ∧ s.sections = [g, h, k] ∧ s.held = [] ∧
      s.log = [⟨true, .probeLock 1 [] .lock 7, .acquisition, []⟩,
        ⟨true, .probeLock 1 [] .unlock 7, .release g, [g]⟩,
        ⟨true, .probeLock 1 [] .lock 7, .acquisition, []⟩,
        ⟨false, .probeLock 1 [] .lock 7, .acquisition, []⟩,
        ⟨false, .probeLock 1 [] .unlock 7, .release h, [h]⟩,
        ⟨true, .probeLock 1 [] .unlock 7, .release k, [k]⟩] :=
    ⟨_, .cons ⟨.lockProbe rfl hlock rfl rfl (by decide), trivial⟩
      (.cons ⟨.acquire rfl (by decide), by change ¬ Threads.State.Guarded _ _; decide⟩
      (.cons ⟨.unlockProbe rfl (by decide) rfl hunlock rfl (by decide), trivial⟩
      (.cons ⟨.release rfl, trivial⟩
      (.cons ⟨.lockProbe rfl hlock rfl rfl (by decide), trivial⟩
      (.cons ⟨.lockProbe rfl hlock rfl rfl (by decide), trivial⟩
      (.cons ⟨.acquire rfl (by decide), by change ¬ Threads.State.Guarded _ _; decide⟩
      (.cons ⟨.unlockProbe rfl (by decide) rfl hunlock rfl (by decide), trivial⟩
      (.cons ⟨.release rfl, trivial⟩
      (.cons ⟨.acquire rfl (by decide), by change ¬ Threads.State.Guarded _ _; decide⟩
      (.cons ⟨.unlockProbe rfl (by decide) rfl hunlock rfl (by decide), trivial⟩
      (.single ⟨.release rfl, trivial⟩))))))))))),
      fun t => by cases t <;> rfl, rfl, rfl, rfl⟩
  obtain ⟨s, hrun, hidle, hsections, hheld, hlog⟩ := hrun
  have hclean : ∀ e ∈ s.log, Clean e.call.file := by simp only [hlog]; decide
  obtain ⟨A, gs, hreport, -, hunlocks, -, -, hmutex, hmem⟩ :=
    report_unlocks glibcPointer self hrun hidle hclean 7
  have hgs : gs = [g, h, k] := by
    rw [hmutex (by rw [hsections]; decide), Threads.State.ended, hsections, hheld]
    rfl
  refine ⟨s, ⟨_, hrun⟩, by rw [hlog]; rfl, A, hmem ?_, hreport, by rw [hunlocks, hgs]; rfl⟩
  rw [hgs]
  exact ⟨g, by decide, h, by decide, by decide⟩

end Atom

end AtomicityViolation
