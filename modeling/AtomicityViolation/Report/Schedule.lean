import AtomicityViolation.Library.Shuffle
import AtomicityViolation.Report.Atom
import AtomicityViolation.Runtime.Inttrace

/-!
# The report and the schedule

The order in which the threads get `fp_lock` is that of the lines in the log, and with it the order
of the groups, the first thread of each and the order inside a block change. The addresses that are
reported do not, nor do the entries of their blocks and the order of the entries of each thread
(`report_schedule`).
-/

namespace AtomicityViolation

namespace Atom

open Transition (Run)
open LockedStream (Action Step init taken callsOf SameCalls)

variable {T P : Type*} [DecidableEq T] [DecidableEq P] (fmt : PointerFormat P) (self : T → P)

/-- The calls for an address. -/
def callsAt (a : P) (ps : List (T × ProbeCall P)) : List (T × ProbeCall P) :=
  ps.filter fun p => decide (p.2.addr = a)

/-- The entry of a call. -/
def callEntry (p : T × ProbeCall P) : List Char := entry fmt (p.2.record (self p.1))

/-- The block of an address, from the calls in their order. -/
def callBlock (ps : List (T × ProbeCall P)) (a : P) : List (List Char) :=
  ("address: [".toList ++ fmt.text a ++ "]".toList) :: (callsAt a ps).map (callEntry fmt self) ++
    [dashes]

omit [DecidableEq T] in
/-- It is the block of the records. -/
theorem block_recordsOfCalls (ps : List (T × ProbeCall P)) :
    block fmt (recordsOfCalls self ps) = callBlock fmt self ps := by
  funext a
  have hrecords : recordsOf (recordsOfCalls self ps) a = recordsOfCalls self (callsAt a ps) := by
    simp only [recordsOf, recordsOfCalls, callsAt, List.filter_map]
    congr 1
    exact List.filter_congr fun p _ => by simp
  rw [block, callBlock, hrecords, recordsOfCalls, List.map_map]
  rfl

omit [DecidableEq P] in
/-- Sharing is that of the records, whatever their order. -/
theorem Shared.perm {rs rs' : List (Record P)} (h : rs.Perm rs') {a : P} (hs : Shared rs a) :
    Shared rs' a := by
  obtain ⟨r, hr, r', hr', ha, ha', hne⟩ := hs
  exact ⟨r, h.mem_iff.mp hr, r', h.mem_iff.mp hr', ha, ha', hne⟩

/-- The report of the log of one schedule. -/
theorem run_schedule {calls : T → List (ProbeCall P)} (hclean : ∀ t, ∀ c ∈ calls t, Clean c.file)
    {as : List (Action T (ProbeCall P) Char)} {s : LockedStream.State T (ProbeCall P) Char}
    (h : Run (Step (printed fmt self)) (init calls []) as s) (hret : s.Returned) :
    ∃ A : List P, A.Nodup ∧ (∀ a, a ∈ A ↔ Shared (recordsOfCalls self (taken as)) a) ∧
      run s.stream = .ok (A.flatMap (callBlock fmt self (taken as))) := by
  obtain ⟨hlog, hcalls⟩ := log_of_probes fmt self calls h hret
  have hnames : ∀ r ∈ recordsOfCalls self (taken as), Clean r.file := by
    intro r hr
    obtain ⟨⟨t, c⟩, hp, rfl⟩ := List.mem_map.mp hr
    have hc : c ∈ callsOf t (taken as) :=
      List.mem_map.mpr ⟨(t, c), List.mem_filter.mpr ⟨hp, by simp⟩, rfl⟩
    rw [ProbeCall.record_file]
    exact hclean t c (hcalls t ▸ hc)
  refine ⟨_, (Dict.nodup_eraseDups _).filter _, fun a => mem_reported, ?_⟩
  rw [hlog, run_log fmt hnames, block_recordsOfCalls]

/-- The report does not depend on the schedule. For any threads, any calls of them with clean names
and any two runs in which all calls return: nothing is raised for either log, the same addresses are
reported, each once, the two blocks of an address have the same entries, and the entries of each
thread stand in the same order in both. -/
theorem report_schedule {calls : T → List (ProbeCall P)}
    (hclean : ∀ t, ∀ c ∈ calls t, Clean c.file)
    {as as' : List (Action T (ProbeCall P) Char)}
    {s s' : LockedStream.State T (ProbeCall P) Char}
    (h : Run (Step (printed fmt self)) (init calls []) as s) (hret : s.Returned)
    (h' : Run (Step (printed fmt self)) (init calls []) as' s') (hret' : s'.Returned) :
    ∃ A A' : List P, A.Nodup ∧ A.Perm A' ∧
      run s.stream = .ok (A.flatMap (callBlock fmt self (taken as))) ∧
      run s'.stream = .ok (A'.flatMap (callBlock fmt self (taken as'))) ∧
      ∀ a, (callsAt a (taken as)).Perm (callsAt a (taken as')) ∧
        ∀ t, callsOf t (callsAt a (taken as)) = callsOf t (callsAt a (taken as')) := by
  obtain ⟨A, hA, hmem, hrun⟩ := run_schedule fmt self hclean h hret
  obtain ⟨A', hA', hmem', hrun'⟩ := run_schedule fmt self hclean h' hret'
  -- Both orders are interleavings of the calls of the threads.
  have hsame : SameCalls (taken as) (taken as') := fun t =>
    (LockedStream.calls_eq h hret t).trans (LockedStream.calls_eq h' hret' t).symm
  have hperm : (recordsOfCalls self (taken as)).Perm (recordsOfCalls self (taken as')) :=
    hsame.perm.map _
  have hreported : ∀ a, a ∈ A ↔ a ∈ A' := fun a => by
    rw [hmem, hmem']
    exact ⟨Shared.perm hperm, Shared.perm hperm.symm⟩
  refine ⟨A, A', hA, (List.perm_ext_iff_of_nodup hA hA').mpr hreported, hrun, hrun', fun a => ?_⟩
  have hat : SameCalls (callsAt a (taken as)) (callsAt a (taken as')) := hsame.filter _
  exact ⟨hat.perm, hat⟩

/-- The call of each of two threads, both for the address `16`. -/
def sharedCall (t : Bool) : ProbeCall ℕ :=
  if t then .probe 7 ['f'] .store 16 else .probe 8 ['g'] .load 16

/-- What `pthread_self()` returns in them. -/
def sharedSelf (t : Bool) : ℕ := if t then 1 else 2

/-- Either of them can be the first to get `fp_lock`. -/
theorem run_sharedCall (t : Bool) : ∃ (as : List (Action Bool (ProbeCall ℕ) Char))
    (s : LockedStream.State Bool (ProbeCall ℕ) Char),
    Run (Step (printed glibcPointer sharedSelf)) (init (fun t => [sharedCall t]) []) as s ∧
    s.Returned ∧ taken as = [(t, sharedCall t), (!t, sharedCall !t)] := by
  let text : Bool → ProbeCall ℕ → List Char := printed glibcPointer sharedSelf
  cases t with
  | false =>
    have hfirst : Run (Step text) (init (fun t => [sharedCall t]) []) _ _ :=
      LockedStream.call_run (t := false) rfl rfl rfl
    have hsecond := hfirst.append (LockedStream.call_run (t := true) rfl rfl rfl)
    exact ⟨_, _, hsecond, fun u => by cases u <;> exact ⟨rfl, rfl⟩, rfl⟩
  | true =>
    have hfirst : Run (Step text) (init (fun t => [sharedCall t]) []) _ _ :=
      LockedStream.call_run (t := true) rfl rfl rfl
    have hsecond := hfirst.append (LockedStream.call_run (t := false) rfl rfl rfl)
    exact ⟨_, _, hsecond, fun u => by cases u <;> exact ⟨rfl, rfl⟩, rfl⟩

/-- The reports of two runs of these threads, in the one order and in the other. -/
theorem report_schedule_sharedCall : ∃ (as as' : List (Action Bool (ProbeCall ℕ) Char))
    (s s' : LockedStream.State Bool (ProbeCall ℕ) Char),
    taken as = [(true, sharedCall true), (false, sharedCall false)] ∧
    taken as' = [(false, sharedCall false), (true, sharedCall true)] ∧
    ∃ A A' : List ℕ, A.Nodup ∧ A.Perm A' ∧
      run s.stream = .ok (A.flatMap (callBlock glibcPointer sharedSelf (taken as))) ∧
      run s'.stream = .ok (A'.flatMap (callBlock glibcPointer sharedSelf (taken as'))) ∧
      ∀ a, (callsAt a (taken as)).Perm (callsAt a (taken as')) ∧
        ∀ t, callsOf t (callsAt a (taken as)) = callsOf t (callsAt a (taken as')) := by
  obtain ⟨as, s, h, hret, htaken⟩ := run_sharedCall true
  obtain ⟨as', s', h', hret', htaken'⟩ := run_sharedCall false
  have hclean : ∀ t, ∀ c ∈ [sharedCall t], Clean c.file := by decide
  exact ⟨as, as', s, s', htaken, htaken',
    report_schedule glibcPointer sharedSelf hclean h hret h' hret'⟩

end Atom

end AtomicityViolation
