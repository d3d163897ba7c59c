import Mathlib.Logic.Equiv.List
import AtomicityViolation.Pass.Threads
import AtomicityViolation.Report.Schedule

/-!
# From the threads of a program to its report

The threads of an instrumented module run under any interleaving, each call of a probe prints a line
of the values that it is passed, as `fprintf` reads them (`Reading`), and `atom.py` reads the lines.
It raises nothing, and what it reports are the addresses for which the recorders of threads with
different ids make calls (`report_threads`).
-/

namespace AtomicityViolation

open Transition (Run Procedures pair pair_nil taggedView threadView threadView_call
  threadView_step)

variable {ι V M : Type*}

/-! ## What the probes print -/

/-- How `fprintf` reads what it is passed, for `%d` and for `%s`. -/
structure Reading (V : Type*) where
  int : V → ℤ
  str : V → List Char

/-- Constants are read as what they are. -/
structure Reading.Faithful (R : Reading V) (m : Machine V M) : Prop where
  int : ∀ i, R.int (m.const (.int i) intTy) = i.toInt
  str : ∀ s, R.str (m.const (.str s) ptrTy) = s.toList

/-- The line that a probe prints of what it is passed, in a thread in which `pthread_self()` returns
`self`: `"%p,%d,%s,%p,%s\n"`. -/
def Reading.line (R : Reading V) (fmt : PointerFormat V) (self : V) : Passed V → List Char
  | (_, [line, file, op, addr]) =>
    fmt.text self ++ ',' :: (decimal (R.int line) ++ ',' :: (R.str file ++ ',' ::
      (fmt.text addr ++ ',' :: (R.str op ++ ['\n']))))
  | _ => []

/-- The log of what threads show. -/
def Reading.log (R : Reading V) (fmt : PointerFormat V) (self : ι → V)
    (shown : List (ι × ((ℕ × (Event V M ⊕ Passed V)) ⊕ Call V M))) : List Char :=
  shown.flatMap fun o =>
    match o with
    | (t, .inl (_, .inr passed)) => R.line fmt (self t) passed
    | _ => []

/-- The calls that recorders make, with their threads. -/
def recordedCalls (os : List (ι × ((ℕ × (Event V M ⊕ ProbeCall V)) ⊕ Call V M))) :
    List (ι × ProbeCall V) :=
  os.filterMap fun o =>
    match o with
    | (t, .inl (_, .inr call)) => some (t, call)
    | _ => none

variable {R : Reading V} {m : Machine V M} {fmt : PointerFormat V}

/-- What is passed for a call prints its record. -/
theorem Reading.Faithful.line_passed (h : R.Faithful m) (self : V) (call : ProbeCall V) :
    R.line fmt self (m.passed call) = fmt.line (call.record self) := by
  cases call <;>
    simp [Machine.passed, Machine.passedTo, Reading.line, PointerFormat.line, ProbeCall.record,
      h.int, h.str]

/-- The log of what recorders show is that of the records of their calls. -/
theorem Reading.Faithful.log_shown (h : R.Faithful m) (self : ι → V)
    (os : List (ι × ((ℕ × (Event V M ⊕ ProbeCall V)) ⊕ Call V M))) :
    R.log fmt self (os.filterMap (threadView (taggedView fun _ o => some (m.shown o)))) =
      fmt.log (recordsOfCalls self (recordedCalls os)) := by
  induction os with
  | nil => rfl
  | cons o os ih =>
    rcases o with ⟨t, ⟨i, e | call⟩ | f⟩
    · exact ih
    · calc R.line fmt (self t) (m.passed call) ++ R.log fmt self (os.filterMap (threadView
              (taggedView fun _ o => some (m.shown o))))
          = fmt.line (call.record (self t)) ++
              fmt.log (recordsOfCalls self (recordedCalls os)) := by rw [h.line_passed, ih]
        _ = _ := rfl
    · exact ih

/-! ## The names in the log -/

variable {src : Source} {file : String} {σ : Frame V M} {I : Inst} {call : ProbeCall V}

/-- A call is announced with the file of the function. -/
theorem file_of_announcement (h : m.announcement src file σ I = some call) :
    call.file = file.toList := by
  unfold Machine.announcement at h
  split at h
  · cases h
    rfl
  · obtain ⟨s, -, h⟩ := Option.bind_eq_some_iff.mp h
    obtain ⟨lock, -, rfl⟩ := Option.map_eq_some_iff.mp h
    rfl

/-- And so it is reported. -/
theorem file_of_report (h : m.report file σ I = some call) : call.file = file.toList := by
  unfold Machine.report at h
  split at h
  · cases h
    rfl
  · cases h

/-- The call that is due, if one is, has the file of the function. -/
def Watch.Named (file : Option String) (w : Watch V) : Prop :=
  ∀ call, w = .owes call → ∃ path, file = some path ∧ call.file = path.toList

/-- Every step of a recorder keeps that, and makes no other calls. -/
theorem Machine.Watches.named {blocks : List Block} {file : Option String}
    {p p' : State V M × Watch V} {o : Event V M ⊕ ProbeCall V}
    (h : m.Watches src blocks file p o p') (hp : p.2.Named file) :
    (∀ call, o = .inr call → ∃ path, file = some path ∧ call.file = path.toList) ∧
      p'.2.Named file := by
  cases h with
  | other => exact ⟨fun _ ho => (by cases ho), hp⟩
  | @admitted path _ _ _ h =>
    cases h with
    | announce hcall =>
      refine ⟨fun call ho => ?_, fun _ hw => by cases hw⟩
      cases ho
      exact ⟨path, rfl, file_of_announcement hcall⟩
    | report =>
      refine ⟨fun call ho => ?_, fun _ hw => by cases hw⟩
      cases ho
      exact hp _ rfl
    | @exec _ I _ σ w e s hstep hw =>
      refine ⟨fun _ ho => (by cases ho), fun call hcall => ?_⟩
      -- After an instruction a call can be due that reports it.
      have hafter : m.watchAfter src path σ I w = .owes call →
          m.report path σ I = some call := by
        intro hafter
        cases w with
        | away => cases hafter
        | ready | told | owes =>
          simp only [Machine.watchAfter] at hafter
          split_ifs at hafter
          cases hreport : m.report path σ I with
          | none =>
            rw [hreport] at hafter
            cases hafter
          | some call' =>
            rw [hreport] at hafter
            cases hafter
            rfl
      refine ⟨path, rfl, file_of_report (hafter ?_)⟩
      simp only at hcall
      split_ifs at hcall
      exact hcall

/-- The calls of the recorders of a module carry the files of functions that the pass admits. -/
theorem Linked.recorded_file [DecidableEq ι] {L : Linked V M} {files : ℕ → Option String}
    {bodies : ℕ → List Block} {mem : M}
    {os : List (ι × ((ℕ × (Event V M ⊕ ProbeCall V)) ⊕ Call V M))}
    {Y : (ι → List (ℕ × State V M × Watch V)) × M}
    (h : Run ((L.recorder src files bodies).Interleaved Watch.memory) (fun _ => [], mem) os Y) :
    ∀ p ∈ recordedCalls os, ∃ i path, files i = some path ∧ p.2.file = path.toList := by
  have hlabels := Procedures.run_forall_mem
    (I := fun s : ℕ × State V M × Watch V => s.2.2.Named (files s.1))
    (Q := fun a : ℕ × (Event V M ⊕ ProbeCall V) => ∀ call, a.2 = .inr call →
      ∃ path, files a.1 = some path ∧ call.file = path.toList)
    (fun f s hs call hw => ?_) (fun s a s' hs hstep => ?_) (fun s r a s' hs hstep => ?_)
    (fun _ _ hs => hs) h
  · rintro ⟨t, call⟩ hp
    obtain ⟨⟨u, o⟩, ho, hcall⟩ := List.mem_filterMap.mp hp
    rcases o with ⟨i, e | call'⟩ | f
    · cases hcall
    · cases hcall
      obtain ⟨path, hpath⟩ := hlabels t _ ho call rfl
      exact ⟨i, path, hpath⟩
    · cases hcall
  · rw [hs.2.2] at hw
    cases hw
  · obtain ⟨i, p⟩ := s
    obtain ⟨j, o⟩ := a
    obtain ⟨k, p'⟩ := s'
    obtain ⟨hj, hk, hstep⟩ := hstep
    obtain rfl : j = i := hj
    obtain rfl : k = j := hk
    exact hstep.named hs
  · obtain ⟨i, p⟩ := s
    obtain ⟨j, o⟩ := a
    obtain ⟨k, p'⟩ := s'
    obtain ⟨-, hj, hk, hstep⟩ := hstep
    obtain rfl : j = i := hj
    obtain rfl : k = j := hk
    exact hstep.named hs

/-! ## The report -/

namespace Atom

open Transition (Run)

/-- Records of calls with distinct thread ids are calls of such threads. -/
theorem shared_recordsOfCalls (self : ι → V) (ps : List (ι × ProbeCall V)) (a : V) :
    Shared (recordsOfCalls self ps) a ↔
      ∃ p ∈ ps, ∃ q ∈ ps, p.2.addr = a ∧ q.2.addr = a ∧ self p.1 ≠ self q.1 := by
  constructor
  · rintro ⟨_, hr, _, hr', hra, hra', hne⟩
    obtain ⟨p, hp, rfl⟩ := List.mem_map.mp hr
    obtain ⟨q, hq, rfl⟩ := List.mem_map.mp hr'
    rw [ProbeCall.record_addr] at hra hra'
    rw [ProbeCall.record_tid, ProbeCall.record_tid] at hne
    exact ⟨p, hp, q, hq, hra, hra', hne⟩
  · rintro ⟨p, hp, q, hq, hpa, hqa, hne⟩
    refine ⟨_, List.mem_map_of_mem hp, _, List.mem_map_of_mem hq, ?_, ?_, ?_⟩
    · rw [ProbeCall.record_addr, hpa]
    · rw [ProbeCall.record_addr, hqa]
    · rwa [ProbeCall.record_tid, ProbeCall.record_tid]

/-- From the threads of a program to its report. `N` is the module after the initialisation, or the
module itself where the pass admits none of its functions, and `ns` has the first identity that is
new in each function, so that `N` is what remains without the new instructions. For every
interleaving of any threads of the instrumented module, in which no
thread changes a guard that another one is about to drop: the recorders of the threads have a run
that shows the same, and `atom.py` raises nothing for the log. It prints a block for each address
for which threads with different ids made recorded calls, and the block lists the calls for the
address, each with its thread and operation, in the order in which they were made. -/
theorem report_threads {Mem : Type*} [DecidableEq ι] [DecidableEq V] (fmt : PointerFormat V)
    (self : ι → V) (R : Reading V) (L : Linked V Mem) (hnoop : L.machine.NoopCast)
    (hR : R.Faithful L.machine) (src : Source) (M M' : Module) (hM : M.Proper)
    (h : src.Instrumented M M')
    (hclean : ∀ i path, M.fileAt src i = some path → Clean path.toList) :
    ∃ (N : Module) (ns : ℕ → ℕ), (N = M ∧ (∀ i ∈ M.defined, M.fileAt src i = none) ∨
        initialization M = .ok (.ready, N)) ∧
      (∀ i, (M'.bodyAt i).map (List.filter (Inst.old (ns i))) = N.bodyAt i) ∧
      ∀ mem as X, Run ((L.procedures M'.bodyAt).Calmly (ι := ι) State.memory
          (L.Allows src (N.fileAt src) ns)) (fun _ => [], mem) as X →
        ∃ os Y, Run ((L.recorder src (N.fileAt src) N.bodyAt).Interleaved (ι := ι) Watch.memory)
            (fun _ => [], mem) os Y ∧
          os.filterMap (threadView (taggedView fun _ o => some (L.machine.shown o))) =
            as.filterMap (threadView (taggedView fun i => Event.observe (ns i))) ∧
          ∃ A : List V, A.Nodup ∧
            run (R.log fmt self
                (as.filterMap (threadView (taggedView fun i => Event.observe (ns i))))) =
              .ok (A.flatMap (callBlock fmt self (recordedCalls os))) ∧
            ∀ a, a ∈ A ↔ ∃ p ∈ recordedCalls os, ∃ q ∈ recordedCalls os,
              p.2.addr = a ∧ q.2.addr = a ∧ self p.1 ≠ self q.1 := by
  obtain ⟨N, ns, hN, htreated⟩ := h.treated hM
  refine ⟨N, ns, hN, fun i => (htreated i).erase, fun mem as X hrun => ?_⟩
  obtain ⟨os, Y, hos, hview, -, -⟩ := (L.answersThreads ι hnoop htreated).1 mem as X hrun
  have hfile : N.fileAt src = M.fileAt src := by
    rcases hN with ⟨rfl, -⟩ | hinit
    · rfl
    · exact fileAt_initialization hinit
  have hnames : ∀ r ∈ recordsOfCalls self (recordedCalls os), Clean r.file := by
    intro r hr
    obtain ⟨p, hp, rfl⟩ := List.mem_map.mp hr
    obtain ⟨i, path, hpath, hname⟩ := Linked.recorded_file hos p hp
    rw [ProbeCall.record_file, hname]
    exact hclean i path (hfile ▸ hpath)
  refine ⟨os, Y, hos, hview, ((recordsOfCalls self (recordedCalls os)).map Record.addr).eraseDups
    |>.filter (shared (recordsOfCalls self (recordedCalls os))),
    (Dict.nodup_eraseDups _).filter _, ?_, fun a => ?_⟩
  · rw [← hview, hR.log_shown, run_log fmt hnames, block_recordsOfCalls]
  · rw [mem_reported, shared_recordsOfCalls]

end Atom

/-! ## Words with a number for each text -/

/-- The word that a constant is. A text is the number of the list of its characters. -/
def Const.coded : Const → ℕ
  | .int value => value.toNat
  | .str s => Encodable.encode (s.toList.map Char.toNat)
  | .global _ => 0
  | .bitcast c _ | .structGep c => c.coded

/-- The words of `flagLinked` with these constants. -/
def codedLinked : Linked ℕ (ℕ → Option ℕ) :=
  { flagLinked with machine := { wordMachine with const := fun c _ => c.coded } }

/-- Words are read as numbers, and as texts by their numbers. -/
def codedReading : Reading ℕ where
  int n := (BitVec.ofNat 32 n).toInt
  str n := ((Encodable.decode n).getD []).map Char.ofNat

/-- The constants are read as what they are. -/
theorem codedReading_faithful : codedReading.Faithful codedLinked.machine where
  int i := by simp [codedReading, codedLinked, Const.coded]
  str s := by simp [codedReading, codedLinked, Const.coded, Function.comp_def, Char.ofNat_toNat]

/-- The step of the inserted call in `set`. -/
def setProbed (mem : ℕ → Option ℕ) : Event ℕ (ℕ → Option ℕ) :=
  ⟨6, some ⟨.function "_probe_",
    (codedLinked.machine.passedTo "_probe_" 3 "/flag/main.rs" .store 16).2, .returned 0 mem⟩,
    none, mem⟩

/-- Two threads call the instrumented `set`, and their steps take turns. -/
def probedRun : List (ℕ × ((ℕ × Event ℕ (ℕ → Option ℕ)) ⊕ Call ℕ (ℕ → Option ℕ))) :=
  [(0, .inr ⟨0, [16], flagMem 0⟩), (1, .inr ⟨0, [16], flagMem 0⟩),
    (1, .inl (0, setProbed (flagMem 0))), (0, .inl (0, setProbed (flagMem 0))),
    (0, .inl (0, ⟨1, none, none, raisedMem⟩)), (1, .inl (0, ⟨1, none, none, raisedMem⟩)),
    (0, .inl (0, ⟨2, none, none, raisedMem⟩)), (1, .inl (0, ⟨2, none, none, raisedMem⟩))]

/-- A step of an activation of the instrumented `set`. -/
theorem step_setProbed {s s' : State ℕ (ℕ → Option ℕ)} {e : Event ℕ (ℕ → Option ℕ)}
    (h : codedLinked.external.Step (flagOut.bodyAt 0) s e s') :
    (codedLinked.procedures flagOut.bodyAt).step (0, s) (0, e) (0, s') := ⟨rfl, rfl, h⟩

/-- The run of the two threads. -/
theorem run_setProbed : Run ((codedLinked.procedures flagOut.bodyAt).Interleaved State.memory)
    (fun _ => [], flagMem 0) probedRun
    (pair [(0, .done (some 0) raisedMem)] [(0, .done (some 0) raisedMem)], raisedMem) := by
  have hstart : (codedLinked.procedures flagOut.bodyAt).starts ⟨0, [16], flagMem 0⟩
      (0, .enter (setProbe :: setBlock) 0 0 (codedLinked.entry 0 [16]) (flagMem 0)) :=
    ⟨rfl, ⟨_, rfl, rfl⟩⟩
  rw [← pair_nil]
  refine .cons (.start_zero hstart rfl) (.cons (.start_one hstart rfl) ?_)
  refine .cons (.step_one (.step (step_setProbed
    (.next (.returned_direct rfl rfl ⟨rfl, rfl⟩))))) ?_
  refine .cons (.step_zero (.step (step_setProbed
    (.next (.returned_direct rfl rfl ⟨rfl, rfl⟩))))) ?_
  refine .cons (.step_zero (.step (step_setProbed (.next (.store rfl rfl))))) ?_
  refine .cons (.step_one (.step (step_setProbed
    (.next (.store rfl (congrArg some update_raisedMem)))))) ?_
  refine .cons (.step_zero (.step (step_setProbed (.exit (.other rfl ⟨rfl, rfl⟩))))) ?_
  exact .single (.step_one (.step (step_setProbed (.exit (.other rfl ⟨rfl, rfl⟩)))))

/-- What is new in the instrumented `set` is the call of the probe. -/
theorem new_of_erase {n : ℕ}
    (h : (flagOut.bodyAt 0).map (List.filter (Inst.old n)) = flagModule.bodyAt 0) :
    2 < n ∧ n ≤ 6 := by
  have hblock : (setProbe :: setBlock).filter (Inst.old n) = setBlock := List.cons.inj h |>.1
  constructor
  · -- The last instruction of `set` remains.
    have hmem : (⟨2, .void, .other "ret" [], some 4⟩ : Inst) ∈
        (setProbe :: setBlock).filter (Inst.old n) := by
      rw [hblock]
      decide
    simpa [Inst.old] using (List.mem_filter.mp hmem).2
  · by_contra hn
    have hmem : setProbe ∈ (setProbe :: setBlock).filter (Inst.old n) :=
      List.mem_filter.mpr ⟨List.mem_cons_self, decide_eq_true (show 6 < n by omega)⟩
    rw [hblock] at hmem
    exact absurd hmem (by decide)

/-- The two threads show what their recorders show. -/
theorem shown_probedRun {ns : ℕ → ℕ} (hold : 2 < ns 0) (hnew : ns 0 ≤ 6) :
    probedRun.filterMap (threadView (taggedView fun i => Event.observe (ns i))) =
      setRecord.filterMap
        (threadView (taggedView fun _ o => some (codedLinked.machine.shown o))) := by
  have hprobe : taggedView (fun i => Event.observe (ns i)) (0, setProbed (flagMem 0)) =
      some (0, .inr (codedLinked.machine.passedTo "_probe_" 3 "/flag/main.rs" .store 16)) := by
    have hid : ¬ (setProbed (flagMem 0)).id < ns 0 := Nat.not_lt.mpr hnew
    simp only [taggedView, Event.observe, if_neg hid]
    rfl
  have hstep : ∀ (i : ℕ) (mem : ℕ → Option ℕ), i ≤ 2 →
      taggedView (fun i => Event.observe (ns i))
        (0, (⟨i, none, none, mem⟩ : Event ℕ (ℕ → Option ℕ))) =
        some (0, .inl ⟨i, none, none, mem⟩) := by
    intro i mem hi
    have hid : i < ns 0 := by omega
    simp [taggedView, Event.observe, hid]
  simp only [probedRun, List.filterMap_cons, List.filterMap_nil, threadView_call,
    threadView_step hprobe, threadView_step (hstep 1 raisedMem (by decide)),
    threadView_step (hstep 2 raisedMem (by decide))]
  rfl

/-- The lines of the two stores. -/
def setLog : List Char :=
  "0x2,3,/flag/main.rs,0x10,store\n0x1,3,/flag/main.rs,0x10,store\n".toList

/-- The two threads print them. -/
theorem log_probedRun {ns : ℕ → ℕ} (hold : 2 < ns 0) (hnew : ns 0 ≤ 6) :
    codedReading.log glibcPointer Nat.succ
      (probedRun.filterMap (threadView (taggedView fun i => Event.observe (ns i)))) = setLog := by
  rw [shown_probedRun hold hnew, codedReading_faithful.log_shown]
  decide +kernel

/-- Two threads call `set` in the crate, instrumented by `HelloWorld.cpp`, and take turns. They
print a line for each store, and `atom.py` prints the block of the flag with both. -/
theorem Atom.report_threads_flagModule : ∃ (N : Module) (ns : ℕ → ℕ),
    (∀ i, (flagOut.bodyAt i).map (List.filter (Inst.old (ns i))) = N.bodyAt i) ∧
    (∃ X, Run ((codedLinked.procedures flagOut.bodyAt).Calmly State.memory
        (codedLinked.Allows .helloWorldCpp (N.fileAt .helloWorldCpp) ns)) (fun _ => [], flagMem 0)
        probedRun X) ∧
    codedReading.log glibcPointer Nat.succ
      (probedRun.filterMap (threadView (taggedView fun i => Event.observe (ns i)))) = setLog ∧
    ∃ os Y, Run ((codedLinked.recorder .helloWorldCpp (N.fileAt .helloWorldCpp)
        N.bodyAt).Interleaved Watch.memory) (fun _ => [], flagMem 0) os Y ∧
      ∃ A : List ℕ, A.Nodup ∧
        A.flatMap (callBlock glibcPointer Nat.succ (recordedCalls os)) =
          ["address: [0x10]".toList, "TID: 0x2 OP: store\n".toList,
            "TID: 0x1 OP: store\n".toList, dashes] ∧
        ∀ a, a ∈ A ↔ ∃ p ∈ recordedCalls os, ∃ q ∈ recordedCalls os,
          p.2.addr = a ∧ q.2.addr = a ∧ Nat.succ p.1 ≠ Nat.succ q.1 := by
  have hnoop : codedLinked.machine.NoopCast := ⟨fun _ => rfl, fun _ _ => rfl⟩
  have hclean : ∀ i path, flagModule.fileAt .helloWorldCpp i = some path → Clean path.toList := by
    rw [fileAt_flagModule]
    rintro (_ | _ | i) path hpath
    · obtain rfl := Option.some.inj hpath
      decide
    · obtain rfl := Option.some.inj hpath
      decide
    · cases hpath
  obtain ⟨N, ns, hN, herase, hreport⟩ := report_threads (ι := ℕ) glibcPointer Nat.succ codedReading
    codedLinked hnoop codedReading_faithful .helloWorldCpp flagModule flagOut flagModule_proper
    flag_instrumented hclean
  obtain ⟨-, hbodies⟩ := flagModule_initialised hN
  obtain ⟨hold, hnew⟩ := new_of_erase ((herase 0).trans (congrFun hbodies 0))
  have hlog := log_probedRun hold hnew
  have hsites : ∀ i, ∀ B ∈ flagOut.bodyAt i, ∀ I ∈ B, Source.site .helloWorldCpp I = none := by
    rintro (_ | _ | i)
    · decide +kernel
    · decide +kernel
    · rintro B ⟨⟩
  have hcalm : Run ((codedLinked.procedures flagOut.bodyAt).Calmly State.memory
      (codedLinked.Allows .helloWorldCpp (N.fileAt .helloWorldCpp) ns)) (fun _ => [], flagMem 0)
      probedRun _ := Linked.calmly_of_lockless hsites run_setProbed
  refine ⟨N, ns, herase, ⟨_, hcalm⟩, hlog, ?_⟩
  obtain ⟨os, Y, hos, -, A, hA, hrun, hshared⟩ := hreport _ _ _ hcalm
  refine ⟨os, Y, hos, A, hA, ?_, hshared⟩
  rw [hlog] at hrun
  exact (Except.ok.inj hrun).symm

end AtomicityViolation
