import AtomicityViolation.Library.Interleaved
import AtomicityViolation.Pass.ModuleRecords

/-!
# Threads of an instrumented module

The threads of a program execute the functions of a module on one memory, and each instruction, each
call of another function and each probe is a step of its own. What another thread does between an
inserted load of a guard and the probe that is passed the lock could make the two differ, so here it
is asked that no other thread changes a guard that is about to be dropped (`State.Allows`). Under
every such interleaving the threads show what the recorders show, each thread by itself and all of
them in one order, and what the recorders show under any interleaving the threads show
(`Source.threads_record`).
-/

namespace AtomicityViolation

open Transition (Run Shared Steady Procedures Undisturbed pair pair_nil threadView taggedView)

variable {V M : Type*} {m : Machine V M} {n : ℕ} {src : Source} {file : String} {I : Inst}
  {σ τ : Frame V M} {blocks' : List Block}

/-! ## The memory of an activation -/

/-- The memory that an activation sees. -/
def State.mem : State V M → M
  | .running _ _ σ => σ.mem
  | .done _ mem => mem

/-- The activation when it sees another memory. -/
def State.withMem (mem : M) : State V M → State V M
  | .running cur code σ => .running cur code { σ with mem }
  | .done v _ => .done v mem

/-- The memory of an activation of a function of a module. -/
def State.memory : Shared (ℕ × State V M) M where
  get s := s.2.mem
  put mem s := (s.1, s.2.withMem mem)
  get_put := by rintro mem ⟨i, _ | _⟩ <;> rfl
  put_get := by rintro ⟨i, _ | _⟩ <;> rfl
  put_put := by rintro mem mem' ⟨i, _ | _⟩ <;> rfl

/-- The memory of the recorder of a function of a module. -/
def Watch.memory : Shared (ℕ × State V M × Watch V) M where
  get s := s.2.1.mem
  put mem s := (s.1, s.2.1.withMem mem, s.2.2)
  get_put := by rintro mem ⟨i, _ | _, w⟩ <;> rfl
  put_get := by rintro ⟨i, _ | _, w⟩ <;> rfl
  put_put := by rintro mem mem' ⟨i, _ | _, w⟩ <;> rfl

/-- Another thread may leave the memory `mem`: where the control is in inserted code, the guard that
the code reads is the same. -/
def State.Allows (m : Machine V M) (src : Source) (n : ℕ) : State V M → M → Prop
  | .running _ (J :: code) τ, mem => n ≤ J.id → ∀ I, code.find? (Inst.old n) = some I →
      m.Keeps src τ I mem
  | _, _ => True

/-- Frames stay in agreement when both see another memory. -/
theorem Frame.Agree.withMem (h : σ.Agree n τ) (mem : M) :
    Frame.Agree n { σ with mem } { τ with mem } :=
  ⟨h.regs, h.entry, h.prev, rfl⟩

namespace Machine

/-- Whether a guard is kept depends on the registers that are read for it. -/
theorem Keeps.congr {mem : M} (h : m.Keeps src τ I mem) (hI : I.Below n)
    (hagree : σ.Agree n τ) : m.Keeps src σ I mem := by
  intro s hs var hvar
  have hregs : ∀ i ∈ var.regs, i < n := fun i hi => hI.2 i (site_regs hs i
    (List.mem_flatMap.mpr ⟨var, List.mem_of_getElem? hvar, hi⟩))
  have hkept := h s hs var hvar
  have heval := eval_congr (m := m) hagree.regs hregs
  have hfield := fieldAddress_congr (m := m) hagree.regs hregs
  cases hroute : s.arm.route with
  | argument => trivial
  | guardValue | guardField =>
    rw [hroute] at hkept
    simpa only [GuardKept, heval, hfield, hagree.mem] using hkept

/-- What is kept twice is kept. -/
theorem Keeps.trans {mem mem' : M} (h : m.Keeps src σ I mem)
    (h' : m.Keeps src { σ with mem } I mem') : m.Keeps src σ I mem' := by
  intro s hs var hvar
  have hkept := h s hs var hvar
  have hkept' := h' s hs var hvar
  cases hroute : s.arm.route with
  | argument => trivial
  | guardValue =>
    rw [hroute] at hkept hkept'
    exact hkept'.trans hkept
  | guardField =>
    rw [hroute] at hkept hkept'
    exact ⟨hkept'.1.trans hkept.1, hkept'.2.trans hkept.2⟩

/-- What is announced of an instruction is the same where the guard is. -/
theorem Keeps.announcement_eq {mem : M} (h : m.Keeps src σ I mem) :
    m.announcement src file { σ with mem } I = m.announcement src file σ I := by
  have hlock : ∀ s, src.site I = some s →
      m.lockAddress { σ with mem } s.args s.arm.route = m.lockAddress σ s.args s.arm.route := by
    intro s hs
    have hkept := h s hs
    cases hroute : s.arm.route with
    | argument => rfl
    | guardValue | guardField =>
      cases hvar : s.args[0]? with
      | none => simp [lockAddress, hvar]
      | some var =>
        have hvar' := hkept var hvar
        rw [hroute] at hvar'
        simp only [GuardKept] at hvar'
        simp [lockAddress, hvar, hvar']
  unfold announcement
  cases hs : src.site I with
  | none => rfl
  | some s => simp [access_of_site hs, hlock s hs]

end Machine

/-! ## The same place in another memory -/

/-- Related states see the same memory. -/
theorem Matches.mem {s t : State V M} (h : Matches n s t) : s.mem = t.mem := by
  cases h with
  | running hagree => exact hagree.mem
  | done => rfl

/-- The recorder and the instrumented body stay at the same place when another thread leaves a
memory. -/
theorem Position.withMem {t : State V M} {p : State V M × Watch V} {mem : M}
    (h : Position m src file n t p) (hallows : t.Allows m src n mem) :
    Position m src file n (t.withMem mem) (p.1.withMem mem, p.2) := by
  cases h with
  | done v _ w => exact .done v mem w
  | away hagree hcode => exact .away (hagree.withMem mem) hcode
  | after hagree hcode hnew hyields hdue hswept =>
    exact .after (hagree.withMem mem) hcode hnew (hyields.imp (fun _ => id) (fun _ _ => id) mem)
      hdue hswept
  | @before cur I code behind post ys σ τ w due hagree hcode hnew hyields hw hfollows =>
    refine .before (hagree.withMem mem) hcode hnew ?_ hw hfollows
    cases behind with
    | nil => exact hyields
    | cons J behind =>
      -- The control is in inserted code, and `I` comes behind it.
      obtain ⟨hJ, hbehind⟩ := List.forall_mem_cons.mp hnew
      have hI := (hcode I List.mem_cons_self).below
      have hfind : (behind ++ I :: (post ++ ys)).find? (Inst.old n) = some I := by
        have hold : Inst.old n I = true := by simpa [Inst.old] using hI.1
        rw [List.find?_append, List.find?_eq_none.mpr, Option.none_or, List.find?_cons_of_pos hold]
        intro K hK
        simpa [Inst.old] using (hbehind K hK).1
      have hkeeps : m.Keeps src σ I mem := Machine.Keeps.congr (hallows hJ.1 I hfind) hI hagree
      exact hyields.imp (fun _ => hkeeps.trans) (fun _ call hcall => hkeeps.announcement_eq ▸ hcall)
        mem

/-- Poised states stay so in any memory. -/
theorem Poised.withMem {t : State V M} {p : State V M × Watch V}
    (h : Poised m src file n blocks' p t) (mem : M) :
    Poised m src file n blocks' (p.1.withMem mem, p.2) (t.withMem mem) := by
  cases h with
  | done v _ w => exact .done v mem w
  | ready hagree hcode hswept => exact .ready (hagree.withMem mem) hcode hswept
  | told hagree hcode hfollows => exact .told (hagree.withMem mem) hcode hfollows
  | away hagree hcode => exact .away (hagree.withMem mem) hcode
  | owes hagree hcode hnew hyields hskips hswept =>
    exact .owes (hagree.withMem mem) hcode hnew
      (hyields.imp (fun _ => id) (fun _ _ => id) mem) hskips hswept

/-- Old code stays so. -/
theorem State.Old.withMem {s : State V M} (h : s.Old n) (mem : M) : (s.withMem mem).Old n := by
  cases s with
  | running => exact h
  | done => trivial

/-- A function that the pass admits, which gives its file, is at the same place as its recorder when
another thread leaves a memory, and so is one that it does not admit. -/
theorem Places.withMem {file : Option String} {t : State V M} {p : State V M × Watch V}
    {mem : M} (h : Places m src n file t p) (hallows : file.isSome = true → t.Allows m src n mem) :
    Places m src n file (t.withMem mem) (p.1.withMem mem, p.2) := by
  cases h with
  | admitted hpos => exact .admitted (hpos.withMem (hallows rfl))
  | other hold => exact .other (hold.withMem mem)

/-- The recorder of a function stays poised. -/
theorem Poises.withMem {file : Option String} {t : State V M} {p : State V M × Watch V}
    (h : Poises m src n blocks' file p t) (mem : M) :
    Poises m src n blocks' file (p.1.withMem mem, p.2) (t.withMem mem) := by
  cases h with
  | admitted hpoised => exact .admitted (hpoised.withMem mem)
  | other hold => exact .other (hold.withMem mem)

/-! ## Threads of a program -/

variable {L : Linked V M} {ns : ℕ → ℕ} {files : ℕ → Option String} {bodies bodies' : ℕ → List Block}

/-- Another thread may leave the memory `mem`, as far as this activation of a function is
concerned. -/
def Linked.Allows (L : Linked V M) (src : Source) (files : ℕ → Option String) (ns : ℕ → ℕ)
    (s : ℕ × State V M) (mem : M) : Prop :=
  (files s.1).isSome = true → s.2.Allows L.machine src (ns s.1) mem

/-- Activations and the recorders of their functions stay at the same places. -/
theorem Linked.steady_places : Steady State.memory Watch.memory
    (fun t p => p.1 = t.1 ∧ Places L.external src (ns t.1) (files t.1) t.2 p.2)
    (L.Allows src files ns) where
  get h := h.2.matches.mem
  put h hallows := ⟨h.1, h.2.withMem hallows⟩

/-- The recorders of functions and activations stay poised. -/
theorem Linked.steady_poises : Steady Watch.memory State.memory
    (fun p t => t.1 = p.1 ∧ Poises L.external src (ns p.1) (bodies' p.1) (files p.1) p.2 t.2)
    fun _ _ => True where
  get h := h.2.matches.mem.symm
  put h _ := ⟨h.1, h.2.withMem _⟩

/-- The threads of a program and those of its recorder answer each other. -/
theorem Linked.answersThreads (ι : Type*) [DecidableEq ι] (hm : L.machine.NoopCast)
    (h : ∀ i, Treated src (ns i) (files i) (bodies i) (bodies' i)) :
    (L.procedures bodies').AnswersThreads ι (L.recorder src files bodies) State.memory Watch.memory
        (L.Allows src files ns) (taggedView fun i => Event.observe (ns i))
        (taggedView fun _ o => some (L.machine.shown o))
        (fun t p => p.1 = t.1 ∧ Matches (ns t.1) p.2.1 t.2) ∧
      (L.recorder src files bodies).AnswersThreads ι (L.procedures bodies') Watch.memory
        State.memory (fun _ _ => True) (taggedView fun _ o => some (L.machine.shown o))
        (taggedView fun i => Event.observe (ns i))
        fun p t => t.1 = p.1 ∧ Matches (ns p.1) p.2.1 t.2 :=
  ⟨(L.procedures_simulated hm h).answersThreads L.steady_places
      (fun _ _ h => ⟨h.1, h.2.matches⟩) fun _ _ h => ⟨h.1, h.2.matches⟩,
    (L.recorder_simulated hm h).answersThreads L.steady_poises
      (fun _ _ h => ⟨h.1, h.2.matches⟩) fun _ _ h => ⟨h.1, h.2.matches⟩⟩

/-- The threads of an instrumented module do what its recorders do, under every interleaving. `N` is
the module after the initialisation, or the module itself where the pass admits none of its
functions, and `ns` has the first identity that is new in each function, so that `N` is what remains
without the new instructions. Any number of threads may start, at any time and with any call, and
the calls may be of any depth: what a run of the instrumented program shows in which no thread
changes a guard that another one is about to drop, a run of the recorders shows; and what any run of
the recorders shows, a run of the instrumented program shows. The runs show the same of each thread
and in the same order, and end with the same memory and with activations that are at the same
places. -/
theorem Source.threads_record {V Mem ι : Type*} [DecidableEq ι] (L : Linked V Mem)
    (hnoop : L.machine.NoopCast) (src : Source) (M M' : Module) (hM : M.Proper)
    (h : src.Instrumented M M') :
    ∃ (N : Module) (ns : ℕ → ℕ), (N = M ∧ (∀ i ∈ M.defined, M.fileAt src i = none) ∨
        initialization M = .ok (.ready, N)) ∧
      (∀ i, (M'.bodyAt i).map (List.filter (Inst.old (ns i))) = N.bodyAt i) ∧
      (L.procedures M'.bodyAt).AnswersThreads ι (L.recorder src (N.fileAt src) N.bodyAt)
        State.memory Watch.memory (L.Allows src (N.fileAt src) ns)
        (taggedView fun i => Event.observe (ns i)) (taggedView fun _ o => some (L.machine.shown o))
        (fun t p => p.1 = t.1 ∧ Matches (ns t.1) p.2.1 t.2) ∧
      (L.recorder src (N.fileAt src) N.bodyAt).AnswersThreads ι (L.procedures M'.bodyAt)
        Watch.memory State.memory (fun _ _ => True)
        (taggedView fun _ o => some (L.machine.shown o)) (taggedView fun i => Event.observe (ns i))
        fun p t => t.1 = p.1 ∧ Matches (ns p.1) p.2.1 t.2 := by
  obtain ⟨N, ns, hN, htreated⟩ := h.treated hM
  exact ⟨N, ns, hN, fun i => (htreated i).erase, L.answersThreads ι hnoop htreated⟩

/-! ## Without lock operations -/

/-- The code that remains has no lock operation. -/
def State.Lockless (src : Source) : State V M → Prop
  | .running _ code _ => ∀ I ∈ code, src.site I = none
  | .done _ _ => True

/-- A step of a body without lock operations keeps that. -/
theorem State.Lockless.step {blocks : List Block} {s s' : State V M} {e : Event V M}
    (h : s.Lockless src) (hblocks : ∀ B ∈ blocks, ∀ I ∈ B, src.site I = none)
    (hstep : m.Step blocks s e s') : s'.Lockless src := by
  cases hstep with
  | next => exact fun I hI => h I (List.mem_cons_of_mem _ hI)
  | jump _ hB => exact hblocks _ (List.mem_of_getElem? hB)
  | exit => trivial

/-- Then any memory may be left. -/
theorem State.Lockless.allows {s : State V M} (h : s.Lockless src) (mem : M) :
    s.Allows m src n mem := by
  cases s with
  | done => trivial
  | running cur code σ =>
    cases code with
    | nil => trivial
    | cons J code =>
      intro _ I hI site hs
      rw [h I (List.mem_cons_of_mem _ (List.mem_of_find?_eq_some hI))] at hs
      cases hs

/-- In a module without lock operations no thread disturbs another. -/
theorem Linked.calmly_of_lockless {ι : Type*} [DecidableEq ι]
    (h : ∀ i, ∀ B ∈ bodies' i, ∀ I ∈ B, src.site I = none) {mem : M}
    {as : List (ι × ((ℕ × Event V M) ⊕ Call V M))} {X : (ι → List (ℕ × State V M)) × M}
    (hrun : Run ((L.procedures bodies').Interleaved State.memory) (fun _ => [], mem) as X) :
    Run ((L.procedures bodies').Calmly State.memory (L.Allows src files ns))
      (fun _ => [], mem) as X := by
  have hput : ∀ (mem : M) (s : ℕ × State V M), s.2.Lockless src →
      (State.memory.put mem s).2.Lockless src := by
    rintro mem ⟨i, _ | _⟩ hs <;> exact hs
  refine hrun.mono_invariant (I := fun X => ∀ j, ∀ s ∈ X.1 j, s.2.Lockless src) ?_ (by simp)
  intro X a Y hX hXY
  have hcalm : Undisturbed State.memory (L.Allows src files ns) X a.1 Y.2 := by
    intro j s ss _ hs _
    exact (hput X.2 s (hX j s (by simp [hs]))).allows Y.2
  refine ⟨⟨hXY, hcalm⟩, (hXY.forall_mem (Q := fun _ => True) ?_ ?_ ?_ hput hX).2⟩
  · rintro f ⟨i, s⟩ ⟨-, B, hB, rfl⟩
    exact h _ B (List.mem_of_getElem? hB)
  · rintro ⟨i, s⟩ a ⟨k, s'⟩ hs ⟨-, rfl, hstep⟩
    exact ⟨trivial, hs.step (h _) hstep⟩
  · rintro ⟨i, s⟩ r a ⟨k, s'⟩ hs ⟨-, rfl, hstep⟩
    exact ⟨trivial, hs.step (h _) hstep⟩

/-- Two threads call `set`. Both record their stores before one of them is executed. -/
def setRecord : List (ℕ × ((ℕ × (Event ℕ (ℕ → Option ℕ) ⊕ ProbeCall ℕ)) ⊕
    Call ℕ (ℕ → Option ℕ))) :=
  [(0, .inr ⟨0, [16], flagMem 0⟩), (1, .inr ⟨0, [16], flagMem 0⟩),
    (1, .inl (0, .inr (.probe 3 "/flag/main.rs".toList .store 16))),
    (0, .inl (0, .inr (.probe 3 "/flag/main.rs".toList .store 16))),
    (0, .inl (0, .inl ⟨1, none, none, raisedMem⟩)), (1, .inl (0, .inl ⟨1, none, none, raisedMem⟩)),
    (0, .inl (0, .inl ⟨2, none, none, raisedMem⟩)), (1, .inl (0, .inl ⟨2, none, none, raisedMem⟩))]

/-- The flag is set once more. -/
theorem update_raisedMem : Function.update raisedMem 16 (some 1) = raisedMem :=
  Function.update_idem _ _ _

/-- The recorders of the two threads. -/
theorem recorders_set :
    Run ((flagLinked.recorder .helloWorldCpp flagFiles flagModule.bodyAt).Interleaved Watch.memory)
      (fun _ => [], flagMem 0) setRecord
      (pair [(0, .done (some 0) raisedMem, .ready)] [(0, .done (some 0) raisedMem, .ready)],
        raisedMem) := by
  have hstart : (flagLinked.recorder .helloWorldCpp flagFiles flagModule.bodyAt).starts
      ⟨0, [16], flagMem 0⟩ (flagStart 0 setBlock (flagMem 0)) := ⟨rfl, ⟨_, rfl, rfl⟩, rfl⟩
  rw [← pair_nil]
  refine .cons (.start_zero hstart rfl) (.cons (.start_one hstart rfl) ?_)
  -- Both threads record their stores.
  refine .cons (.step_one (.step (Linked.recorder_step rfl (.announce rfl)))) ?_
  refine .cons (.step_zero (.step (Linked.recorder_step rfl (.announce rfl)))) ?_
  -- They execute them, and return.
  refine .cons (.step_zero (.step (Linked.recorder_step rfl
    (.exec_ready (.next (.store rfl rfl)) trivial (by simp) rfl rfl)))) ?_
  refine .cons (.step_one (.step (Linked.recorder_step rfl
    (.exec_ready (.next (.store rfl (congrArg some update_raisedMem))) trivial (by simp) rfl
      rfl)))) ?_
  refine .cons (.step_zero (.step (Linked.recorder_step rfl
    (.exec_ready (.exit (.other rfl ⟨rfl, rfl⟩)) rfl (by simp) rfl rfl)))) ?_
  exact .single (.step_one (.step (Linked.recorder_step rfl
    (.exec_ready (.exit (.other rfl ⟨rfl, rfl⟩)) rfl (by simp) rfl rfl))))

/-- The crate, instrumented by `HelloWorld.cpp`: two threads that call `set` show what the recorders
show, and what threads show the recorders show. -/
theorem Source.threads_record_flagModule : ∃ (N : Module) (ns : ℕ → ℕ),
    (∀ i, (flagOut.bodyAt i).map (List.filter (Inst.old (ns i))) = N.bodyAt i) ∧
    (∃ bs Y, Run ((flagLinked.procedures flagOut.bodyAt).Interleaved State.memory)
        (fun _ => [], flagMem 0) bs Y ∧
      bs.filterMap (threadView (taggedView fun i => Event.observe (ns i))) =
        setRecord.filterMap (threadView (taggedView fun _ o => some (wordMachine.shown o))) ∧
      Y.2 = raisedMem) ∧
    (flagLinked.procedures flagOut.bodyAt).AnswersThreads ℕ
      (flagLinked.recorder .helloWorldCpp (N.fileAt .helloWorldCpp) N.bodyAt) State.memory
      Watch.memory (flagLinked.Allows .helloWorldCpp (N.fileAt .helloWorldCpp) ns)
      (taggedView fun i => Event.observe (ns i)) (taggedView fun _ o => some (wordMachine.shown o))
      fun t p => p.1 = t.1 ∧ Matches (ns t.1) p.2.1 t.2 := by
  have hnoop : flagLinked.machine.NoopCast := ⟨fun _ => rfl, fun _ _ => rfl⟩
  obtain ⟨N, ns, hN, herase, hback, hforth⟩ := Source.threads_record (ι := ℕ) flagLinked hnoop
    .helloWorldCpp flagModule flagOut flagModule_proper flag_instrumented
  obtain ⟨hfiles, hbodies⟩ := flagModule_initialised hN
  refine ⟨N, ns, herase, ?_, hback⟩
  rw [hfiles, hbodies] at hforth
  have hcalm : Run ((flagLinked.recorder .helloWorldCpp flagFiles flagModule.bodyAt).Calmly
      Watch.memory fun _ _ => True) (fun _ => [], flagMem 0) setRecord _ :=
    recorders_set.mono fun _ _ _ h => ⟨h, fun _ _ _ _ _ => trivial⟩
  obtain ⟨bs, Y, hbs, hview, hmem, -⟩ := hforth _ _ _ hcalm
  exact ⟨bs, Y, hbs, hview, hmem⟩

end AtomicityViolation
