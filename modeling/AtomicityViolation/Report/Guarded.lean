import AtomicityViolation.Concurrency.Guarded
import AtomicityViolation.Report.Atom

/-!
# The report of a guarded address

From the threads to the report: the threads run instrumented code, their records make the log, and
`atom.py` prints its blocks. For an address that is always accessed under guards that exclude each
other, the block lists the accesses that were made, in the order in which they took effect
(`report_guarded`).
-/

namespace AtomicityViolation

namespace Atom

open Transition (Run)
open Threads (Access Entry Step init)

variable {T P : Type*} [DecidableEq T] [DecidableEq P] (fmt : PointerFormat P) (self : T → P)

/-- The records of the log of a state. -/
def recordsOfLog (log : List (Entry T P)) : List (Record P) :=
  log.map fun e => e.call.record (self e.tid)

/-- What is printed for an access. -/
def accessEntry (a : Access T P) : List Char :=
  "TID: ".toList ++ fmt.text (self a.id.tid) ++ " OP: ".toList ++ (a.id.op.text.toList ++ ['\n'])

omit [DecidableEq T] [DecidableEq P] in
/-- The record of an access prints what the access is. -/
theorem entry_of_effect {e : Entry T P} {a : Access T P} (h : e.effect = some a) :
    entry fmt (e.call.record (self e.tid)) = accessEntry fmt self a := by
  obtain ⟨hop, -, htid⟩ := Entry.of_effect h
  unfold accessEntry
  rw [← hop, ← htid]
  cases e.call <;> rfl

omit [DecidableEq T] in
/-- The entries for an address of which no lock is recorded are those of its accesses. -/
theorem entries_told {log : List (Entry T P)} {y : P}
    (hlock : ∀ e ∈ log, e.call.addr = y → e.access.isSome = true) :
    (recordsOf (recordsOfLog self log) y).map (entry fmt) =
      ((log.filterMap Entry.effect).filter fun a => decide (a.addr = y)).map
        (accessEntry fmt self) := by
  induction log with
  | nil => rfl
  | cons e log ih =>
    obtain ⟨he, hrest⟩ := List.forall_mem_cons.mp hlock
    have hcons : recordsOf (recordsOfLog self (e :: log)) y =
        (if e.call.addr = y then [e.call.record (self e.tid)] else []) ++
          recordsOf (recordsOfLog self log) y := by
      by_cases hy : e.call.addr = y <;> simp [recordsOf, recordsOfLog, hy]
    rw [hcons, List.map_append, ih hrest]
    cases heff : e.effect with
    | none =>
      -- The record is of no access, so it is not of this address.
      have hnone : e.call.addr ≠ y := fun hy => by
        obtain ⟨i, hi⟩ := Option.isSome_iff_exists.mp (he hy)
        simp [Entry.effect, hi] at heff
      simp [hnone, heff]
    | some a =>
      obtain ⟨-, haddr, -⟩ := Entry.of_effect heff
      have hentry := entry_of_effect fmt self heff
      by_cases hy : a.addr = y <;> simp [heff, haddr, hy, hentry]

omit [DecidableEq T] [DecidableEq P] in
/-- The accesses that the log tells of are records of it. -/
theorem shared_told {log : List (Entry T P)} {y : P}
    (hlock : ∀ e ∈ log, e.call.addr = y → e.access.isSome = true) :
    Shared (recordsOfLog self log) y ↔ ∃ a ∈ log.filterMap Entry.effect,
      ∃ b ∈ log.filterMap Entry.effect, a.addr = y ∧ b.addr = y ∧
        self a.id.tid ≠ self b.id.tid := by
  -- The records of the address are those of the accesses to it.
  have hmem : ∀ t : P, (∃ r ∈ recordsOfLog self log, r.addr = y ∧ r.tid = t) ↔
      ∃ a ∈ log.filterMap Entry.effect, a.addr = y ∧ self a.id.tid = t := by
    intro t
    constructor
    · rintro ⟨r, hr, hy, ht⟩
      obtain ⟨e, he, rfl⟩ := List.mem_map.mp hr
      rw [ProbeCall.record_addr] at hy
      obtain ⟨i, hi⟩ := Option.isSome_iff_exists.mp (hlock e he hy)
      have heff : e.effect = some ⟨i, e.call.addr, e.held⟩ := by rw [Entry.effect, hi]; rfl
      obtain ⟨-, -, htid⟩ := Entry.of_effect heff
      refine ⟨_, List.mem_filterMap.mpr ⟨e, he, heff⟩, hy, ?_⟩
      rw [← ht, ProbeCall.record_tid, htid]
    · rintro ⟨a, ha, hy, ht⟩
      obtain ⟨e, he, heff⟩ := List.mem_filterMap.mp ha
      obtain ⟨-, haddr, htid⟩ := Entry.of_effect heff
      refine ⟨_, List.mem_map_of_mem he, ?_, ?_⟩
      · rw [ProbeCall.record_addr, haddr, hy]
      · rw [ProbeCall.record_tid, htid, ht]
  constructor
  · rintro ⟨r, hr, r', hr', hy, hy', hne⟩
    obtain ⟨a, ha, hay, hat⟩ := (hmem r.tid).mp ⟨r, hr, hy, rfl⟩
    obtain ⟨b, hb, hby, hbt⟩ := (hmem r'.tid).mp ⟨r', hr', hy', rfl⟩
    exact ⟨a, ha, b, hb, hay, hby, by rw [hat, hbt]; exact hne⟩
  · rintro ⟨a, ha, b, hb, hay, hby, hne⟩
    obtain ⟨r, hr, hy, ht⟩ := (hmem _).mpr ⟨a, ha, hay, rfl⟩
    obtain ⟨r', hr', hy', ht'⟩ := (hmem _).mpr ⟨b, hb, hby, rfl⟩
    exact ⟨r, hr, r', hr', hy, hy', by rw [ht, ht']; exact hne⟩

/-- The report of a guarded address. When the threads are between operations, `atom.py` raises
nothing for the log. It reports an address that is guarded, and of which no lock is recorded,
exactly when threads with different ids accessed it, and the block of the address lists its
accesses, each with its thread and operation, in the order in which they took effect. -/
theorem report_guarded {src : Source} {memory : P → Cell P} {as : List (Threads.Action T P)}
    {s : Threads.State T P} (hrun : Run (Step src) (init memory) as s)
    (hidle : ∀ t, s.pending t = .idle) (hclean : ∀ e ∈ s.log, Clean e.call.file) {y : P}
    (hy : s.GuardedAt y) (hlock : ∀ e ∈ s.log, e.call.addr = y → e.access.isSome = true) :
    ∃ A : List P, A.Nodup ∧ run (fmt.log (recordsOfLog self s.log)) =
        .ok (A.flatMap (block fmt (recordsOfLog self s.log))) ∧
      (y ∈ A ↔ ∃ a ∈ s.performed, ∃ b ∈ s.performed, a.addr = y ∧ b.addr = y ∧
        self a.id.tid ≠ self b.id.tid) ∧
      block fmt (recordsOfLog self s.log) y =
        ("address: [".toList ++ fmt.text y ++ "]".toList) ::
          (s.performed.filter fun a => decide (a.addr = y)).map (accessEntry fmt self) ++
            [dashes] := by
  have hnames : ∀ r ∈ recordsOfLog self s.log, Clean r.file := by
    intro r hr
    obtain ⟨e, he, rfl⟩ := List.mem_map.mp hr
    rw [ProbeCall.record_file]
    exact hclean e he
  refine ⟨_, (Dict.nodup_eraseDups _).filter _, run_log fmt hnames, ?_, ?_⟩
  · rw [mem_reported, shared_told self hlock]
    have htraced := (Threads.run_effects hrun).1.traced
    exact exists_congr fun a => and_congr (htraced.over hidle a) <|
      exists_congr fun b => and_congr (htraced.over hidle b) Iff.rfl
  · rw [block, entries_told fmt self hlock]
    exact congrArg (fun l => _ :: List.map (accessEntry fmt self) l ++ [dashes])
      (Threads.guarded_log hrun hidle hy)

/-- The report of two threads that store to the address `5` under one mutex. -/
theorem report_guarded_mutex : ∃ s : Threads.State Bool ℕ,
    (∃ as, Run (Step .helloWorldCpp) (init fun _ => .data) as s) ∧
    ∃ A : List ℕ, 5 ∈ A ∧
      run (glibcPointer.log (recordsOfLog (fun t => if t then 1 else 2) s.log)) =
        .ok (A.flatMap (block glibcPointer (recordsOfLog (fun t => if t then 1 else 2) s.log))) ∧
      block glibcPointer (recordsOfLog (fun t => if t then 1 else 2) s.log) 5 =
        ["address: [0x5]".toList, "TID: 0x1 OP: store\n".toList, "TID: 0x2 OP: store\n".toList,
          dashes] := by
  let self : Bool → ℕ := fun t => if t then 1 else 2
  obtain ⟨as, s, hrun, hidle, hperformed, hlog⟩ := Threads.run_mutexStores
  have hclean : ∀ e ∈ s.log, Clean e.call.file := by simp only [hlog]; decide
  have hlock : ∀ e ∈ s.log, e.call.addr = 5 → e.access.isSome = true := by simp only [hlog]; decide
  have hguarded : s.GuardedAt 5 := by
    simp only [Threads.State.GuardedAt, hperformed]
    unfold Guard.Excludes
    decide
  obtain ⟨A, -, hreport, hmem, hblock⟩ :=
    report_guarded glibcPointer self hrun hidle hclean hguarded hlock
  refine ⟨s, ⟨as, hrun⟩, A, hmem.mpr ?_, hreport, hblock.trans ?_⟩
  · simp only [hperformed]
    decide
  · simp only [hperformed]
    decide

end Atom

end AtomicityViolation
