import AtomicityViolation.Pass.Preserve
import AtomicityViolation.Runtime.Inttrace

/-!
# The recorder

The `Recorder` says what the instrumentation is for, without saying how it is done: it executes the
original body, and calls the probe of a store or lock operation directly before it and that of a
load directly behind it, with the line, the file, the operation and the address that is accessed or
locked. Where the walk leaves a block early, so does the recorder. It changes nothing of what the
body does (`Machine.recorder_transparent`).
-/

namespace AtomicityViolation

open Transition (Run Simulates)

variable {V M : Type*}

/-- What a probe is passed: its name, and the values of its arguments. -/
abbrev Passed (V : Type*) := String × List V

/-- What a call passes to a probe, if it is the call of one. -/
def Called.passed (c : Called V M) : Option (Passed V) :=
  match c.target with
  | .function f => if isProbe f then some (f, c.args) else none
  | _ => none

/-- What a step of the instrumented body shows: that of an original instruction is shown as it is,
and that of a new one by what it passes to a probe. -/
def Event.observe (n : ℕ) (e : Event V M) : Option (Event V M ⊕ Passed V) :=
  if e.id < n then some (.inl e) else (e.called.bind Called.passed).map .inr

/-- The instruction is recorded before it is executed: a store, or a lock operation. -/
def Source.announces (src : Source) (I : Inst) : Bool :=
  match I.access with
  | some (.store, _, _) => true
  | _ => (src.site I).isSome

namespace Machine

variable (m : Machine V M)

/-- The arguments of a probe, with the address `addr`. -/
def passedTo (f : String) (loc : Line) (file : String) (op : Op) (addr : V) : Passed V :=
  (f, [m.const (.int loc) intTy, m.const (.str file) ptrTy, m.const (.str op.text) ptrTy, addr])

/-- What is passed to the probe in a call of it. -/
def passed : ProbeCall V → Passed V
  | .probe loc file op addr => m.passedTo "_probe_" loc (String.ofList file) op addr
  | .probeLock loc file op addr => m.passedTo "_probe_lock_" loc (String.ofList file) op addr

/-- What is shown by a step of the original body, or by a call of a probe. -/
def shown : Event V M ⊕ ProbeCall V → Event V M ⊕ Passed V := Sum.map id m.passed

/-- The address of the lock that is operated on: an argument, or what is read from the guard. It is
none where the guard is not in valid memory. -/
def lockAddress (σ : Frame V M) (args : List Value) : Route → Option V
  | .argument i => args[i]?.map (m.eval σ.regs)
  | .guardValue => args[0]?.bind fun var =>
      m.load var.ty.elementType (m.eval σ.regs var) σ.mem
  | .guardField => args[0]?.bind fun var =>
      (m.load var.ty.elementType (m.eval σ.regs var) σ.mem).bind fun _ =>
        m.load var.ty.elementType.field0 (m.fieldAddress σ.regs var) σ.mem

/-- The probe call of an instruction that is about to be executed. -/
def announcement (src : Source) (file : String) (σ : Frame V M) (I : Inst) :
    Option (ProbeCall V) :=
  match I.access with
  | some (.store, ptr, loc) => some (.probe loc file.toList .store (m.eval σ.regs ptr))
  | _ => (src.site I).bind fun s =>
      (m.lockAddress σ s.args s.arm.route).map (.probeLock s.loc file.toList s.arm.op)

/-- The probe call of an instruction that was executed in the frame `σ`. -/
def report (file : String) (σ : Frame V M) (I : Inst) : Option (ProbeCall V) :=
  match I.access with
  | some (.load, ptr, loc) => some (.probe loc file.toList .load (m.eval σ.regs ptr))
  | _ => none

end Machine

/-- What the recorder does next. -/
inductive Watch (V : Type*) where
  /-- It looks at the next instruction. -/
  | ready
  /-- It has recorded the next instruction, and executes it. -/
  | told
  /-- It has to record the load that was executed last. -/
  | owes (call : ProbeCall V)
  /-- The walk left the block before, so nothing more of it is recorded. -/
  | away

/-- The next instruction can be executed. -/
def Watch.Executes (src : Source) (I : Inst) : Watch V → Prop
  | .ready => src.announces I = false
  | .told | .away => True
  | .owes _ => False

/-- What is to be done after an instruction, by the call that is due behind it. -/
def Watch.ofReport : Option (ProbeCall V) → Watch V
  | some call => .owes call
  | none => .ready

/-- What is to be done after an instruction that stays in the block. -/
def Machine.watchAfter (m : Machine V M) (src : Source) (file : String) (σ : Frame V M) (I : Inst) :
    Watch V → Watch V
  | .away => .away
  | _ => if src.leaves I then .away else .ofReport (m.report file σ I)

/-- The recorder: it executes the original body, and makes the probe calls in between. -/
inductive Machine.Recorder (m : Machine V M) (src : Source) (file : String) (blocks : List Block) :
    State V M × Watch V → Event V M ⊕ ProbeCall V → State V M × Watch V → Prop
  /-- It records the next instruction. -/
  | announce {cur : ℕ} {I : Inst} {code : Block} {σ : Frame V M} {call : ProbeCall V} :
      m.announcement src file σ I = some call →
      Recorder m src file blocks (.running cur (I :: code) σ, .ready) (.inr call)
        (.running cur (I :: code) σ, .told)
  /-- It executes the next instruction. -/
  | exec {cur : ℕ} {I : Inst} {code : Block} {σ : Frame V M} {w : Watch V} {e : Event V M}
      {s : State V M} : m.Step blocks (.running cur (I :: code) σ) e s → w.Executes src I →
      Recorder m src file blocks (.running cur (I :: code) σ, w) (.inl e)
        (s, if e.branch.isSome then .ready else m.watchAfter src file σ I w)
  /-- It records the load before. -/
  | report {cur : ℕ} {code : Block} {σ : Frame V M} {call : ProbeCall V} :
      Recorder m src file blocks (.running cur code σ, .owes call) (.inr call)
        (.running cur code σ, .ready)

variable {m : Machine V M} {src : Source} {file : String} {blocks : List Block}

/-- After an instruction in a block that the walk goes on with, and that is no load, the recorder
looks at the next one. -/
theorem Machine.Recorder.exec_ready {cur : ℕ} {I : Inst} {code : Block} {σ : Frame V M}
    {w : Watch V} {e : Event V M} {s : State V M}
    (hstep : m.Step blocks (.running cur (I :: code) σ) e s) (hw : w.Executes src I)
    (haway : w ≠ .away) (hleaves : src.leaves I = false) (hreport : m.report file σ I = none) :
    m.Recorder src file blocks (.running cur (I :: code) σ, w) (.inl e) (s, .ready) := by
  have hafter : m.watchAfter src file σ I w = .ready := by
    cases w with
    | away => exact absurd rfl haway
    | ready | told | owes => simp [watchAfter, hleaves, hreport, Watch.ofReport]
  have hexec : m.Recorder src file blocks _ _ _ := .exec hstep hw
  rwa [hafter, ite_self] at hexec

/-! ## The recorder and the original body -/

/-- What is recorded before the next instruction can be told there. -/
def Machine.Tellable (m : Machine V M) (src : Source) (file : String) : State V M → Prop
  | .running _ (I :: _) σ => src.announces I = true → (m.announcement src file σ I).isSome = true
  | _ => True

/-- The recorder takes the steps of the original body. -/
theorem recorder_erased : Simulates (m.Recorder src file blocks) (m.Step blocks) Sum.getLeft? some
    fun p s => p.1 = s := by
  rintro p s o p' rfl hstep
  cases hstep with
  | announce | report => exact ⟨[], _, .nil _, rfl, rfl⟩
  | exec hexec => exact ⟨[_], _, .single hexec, rfl, rfl⟩

/-- After an instruction, nothing is recorded of the next one yet. -/
theorem Machine.watchAfter_ne_told (m : Machine V M) (src : Source) (file : String)
    (σ : Frame V M) (I : Inst) (w : Watch V) : m.watchAfter src file σ I w ≠ .told := by
  unfold Machine.watchAfter
  split
  · simp
  · split_ifs
    · simp
    · cases m.report file σ I <;> simp [Watch.ofReport]

/-- Where it can tell what is due, it can take all of them. -/
theorem recorder_follows :
    Simulates (fun s e s' => m.Step blocks s e s' ∧ m.Tellable src file s)
      (m.Recorder src file blocks) some Sum.getLeft? fun s p => p.1 = s ∧ p.2 ≠ .told := by
  rintro _ ⟨s, w⟩ e s' ⟨rfl, hw⟩ ⟨hstep, htell⟩
  obtain ⟨cur, I, code, σ, rfl⟩ : ∃ cur I code σ, s = .running cur (I :: code) σ := by
    cases hstep <;> exact ⟨_, _, _, _, rfl⟩
  -- The instruction is executed once it was recorded, if it is to be.
  have hexec : ∀ w : Watch V, w.Executes src I → ∃ p,
      m.Recorder src file blocks (.running cur (I :: code) σ, w) (.inl e) p ∧
        p.1 = s' ∧ p.2 ≠ .told := by
    intro w hw
    refine ⟨_, .exec hstep hw, rfl, ?_⟩
    simp only
    split_ifs
    · simp
    · exact m.watchAfter_ne_told src file σ I w
  have hready : ∃ os p, Run (m.Recorder src file blocks) (.running cur (I :: code) σ, .ready) os p ∧
      os.filterMap Sum.getLeft? = [e] ∧ p.1 = s' ∧ p.2 ≠ .told := by
    cases hann : src.announces I with
    | false =>
      obtain ⟨p, hp, hrest⟩ := hexec .ready hann
      exact ⟨[_], p, .single hp, rfl, hrest⟩
    | true =>
      obtain ⟨call, hcall⟩ := Option.isSome_iff_exists.mp (htell hann)
      obtain ⟨p, hp, hrest⟩ := hexec .told trivial
      exact ⟨[_, _], p, .cons (.announce hcall) (.single hp), rfl, hrest⟩
  cases w with
  | ready => exact hready
  | told => exact absurd rfl hw
  | owes call =>
    obtain ⟨os, p, hos, hview, hrest⟩ := hready
    exact ⟨.inr call :: os, p, .cons .report hos, hview, hrest⟩
  | away =>
    obtain ⟨p, hp, hrest⟩ := hexec .away trivial
    exact ⟨[_], p, .single hp, rfl, hrest⟩

/-- Recording changes nothing. What a run of the recorder executes is a run of the original body,
and a run of the original body in whose states what is due can be told is executed by a run of the
recorder. -/
theorem Machine.recorder_transparent (m : Machine V M) (src : Source) (file : String)
    (blocks : List Block) (s : State V M) :
    (∀ os p, Run (m.Recorder src file blocks) (s, .ready) os p →
      Run (m.Step blocks) s (os.filterMap Sum.getLeft?) p.1) ∧
    ∀ es s', Run (fun s e s' => m.Step blocks s e s' ∧ m.Tellable src file s) s es s' →
      ∃ os p, Run (m.Recorder src file blocks) (s, .ready) os p ∧
        os.filterMap Sum.getLeft? = es ∧ p.1 = s' := by
  constructor
  · intro os p hrun
    obtain ⟨es, _, hes, hview, rfl⟩ := recorder_erased.run rfl hrun
    rw [List.filterMap_some] at hview
    exact hview ▸ hes
  · intro es s' hrun
    obtain ⟨os, p, hos, hview, hp, -⟩ := recorder_follows.run (t := (s, .ready)) ⟨rfl, by simp⟩ hrun
    rw [List.filterMap_some] at hview
    exact ⟨os, p, hos, hview, hp⟩

end AtomicityViolation
