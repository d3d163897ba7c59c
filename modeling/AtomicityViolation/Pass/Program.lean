import AtomicityViolation.Library.CallStack
import AtomicityViolation.Pass.Records
import AtomicityViolation.Pass.Modules

/-!
# Programs of instrumented functions

The functions of a module call each other, and other functions. What a module is linked with
(`Linked`) says which calls come to a function of the module, and executes the others. A program is
then the stack of the activations of its functions (`Linked.procedures`), where an unwinding callee
unwinds its caller or goes to the landing pad of its invoke. The recorder of a program
(`Linked.recorder`) records in the functions that the pass admits, and executes the others. Where
each body is what the pass makes of it (`Treated`), the program shows what this recorder shows, at
any depth of calls (`Linked.answers`).
-/

namespace AtomicityViolation

open Cursor (SweptTo)
open Transition (Run Simulates Procedures Tagged taggedView stackView)

variable {V M : Type*}

/-! ## What a module is linked with -/

/-- How the end of an activation ends the call of it: with a value it returns, and without one it
unwinds. -/
def CallResult.ofExit : Option V → M → CallResult V M
  | some v, mem => .returned v mem
  | none, mem => .unwound mem

/-- A call of a function of the module, by its position, and the memory that it is given. -/
structure Call (V M : Type*) where
  callee : ℕ
  args : List V
  mem : M

/-- The called operand and the arguments of a call or an invoke. -/
def Inst.calling (I : Inst) : Option (Callee × List Value) :=
  match I.op with
  | .call callee args => some (callee, args)
  | .invoke callee args _ _ => some (callee, args)
  | _ => none

/-- What the functions of a module are executed with. -/
structure Linked (V M : Type*) where
  /-- The machine, which executes the calls of functions outside the module. -/
  machine : Machine V M
  /-- The function of the module that a call comes to. -/
  resolve : Target V → Option ℕ
  /-- The registers at the entry of a function, by its arguments. -/
  entry : ℕ → List V → ℕ → V
  /-- The probes are functions of the runtime. -/
  probe_external : ∀ f, isProbe f = true → resolve (.function f) = none

namespace Linked

variable (L : Linked V M)

/-- The machine on calls of functions outside the module. -/
def external : Machine V M where
  __ := L.machine
  call t args mem r := L.resolve t = none ∧ L.machine.call t args mem r
  probe_returns f args mem hf :=
    (L.machine.probe_returns f args mem hf).imp fun _ h => ⟨L.probe_external f hf, h⟩
  probe_silent f args mem r hf h := L.machine.probe_silent f args mem r hf h.2

/-- The machine in which the calls of functions of the module have the result `r`. -/
def answering (r : CallResult V M) : Machine V M where
  __ := L.machine
  call t args mem r' := if L.resolve t = none then L.machine.call t args mem r' else r' = r
  probe_returns f args mem hf := by
    simpa only [L.probe_external f hf, if_true] using L.machine.probe_returns f args mem hf
  probe_silent f args mem r hf h := by
    rw [if_pos (L.probe_external f hf)] at h
    exact L.machine.probe_silent f args mem r hf h

/-- The control is at a call of a function of the module. -/
def AtCall : State V M → Call V M → Prop
  | .running _ (I :: _) σ, f => ∃ callee args, I.calling = some (callee, args) ∧
      L.resolve (L.machine.target σ.regs callee) = some f.callee ∧
      f.args = args.map (L.machine.eval σ.regs) ∧ f.mem = σ.mem
  | _, _ => False

/-- An activation at its start. -/
def Enters (blocks : ℕ → List Block) (f : Call V M) (s : State V M) : Prop :=
  ∃ B, (blocks f.callee)[0]? = some B ∧ s = .enter B 0 0 (L.entry f.callee f.args) f.mem

/-- The functions of a module with these bodies. An activation is a state of the body of a
function. -/
def procedures (blocks : ℕ → List Block) :
    Procedures (ℕ × State V M) (ℕ × Event V M) (Call V M) (CallResult V M) where
  step := Tagged fun i => L.external.Step (blocks i)
  calls s f := L.AtCall s.2 f
  starts f s := s.1 = f.callee ∧ L.Enters blocks f s.2
  ends s r := ∃ v mem, s.2 = .done v mem ∧ r = .ofExit v mem
  resumes s r := Tagged (fun i => (L.answering r).Step (blocks i)) s

end Linked

/-- The recorder of a function that the pass admits, which gives its file, and the execution of one
that it does not admit. -/
inductive Machine.Watches (m : Machine V M) (src : Source) (blocks : List Block) :
    Option String → State V M × Watch V → Event V M ⊕ ProbeCall V → State V M × Watch V → Prop
  | admitted {file : String} {p p' : State V M × Watch V} {o : Event V M ⊕ ProbeCall V} :
      m.Recorder src file blocks p o p' → Watches m src blocks (some file) p o p'
  | other {s s' : State V M} {w : Watch V} {e : Event V M} : m.Step blocks s e s' →
      Watches m src blocks none (s, w) (.inl e) (s', w)

/-- The recorder can execute the next instruction. -/
def Watch.ExecutesNext (src : Source) : Option String → State V M × Watch V → Prop
  | some _, (.running _ (I :: _) _, w) => w.Executes src I
  | _, _ => True

namespace Linked

variable (L : Linked V M)

/-- The recorder of the functions of a module with these bodies. `files` has the files of the
functions that the pass admits. -/
def recorder (src : Source) (files : ℕ → Option String) (blocks : ℕ → List Block) :
    Procedures (ℕ × State V M × Watch V) (ℕ × (Event V M ⊕ ProbeCall V)) (Call V M)
      (CallResult V M) where
  step := Tagged fun i => L.external.Watches src (blocks i) (files i)
  calls s f := L.AtCall s.2.1 f ∧ Watch.ExecutesNext src (files s.1) s.2
  starts f s := s.1 = f.callee ∧ L.Enters blocks f s.2.1 ∧ s.2.2 = .ready
  ends s r := ∃ v mem, s.2.1 = .done v mem ∧ r = .ofExit v mem
  resumes s r a s' := a.2.isLeft = true ∧
    Tagged (fun i => (L.answering r).Watches src (blocks i) (files i)) s a s'

variable {L} {src : Source} {files : ℕ → Option String} {blocks : ℕ → List Block} {i : ℕ}
  {file : String} {p p' : State V M × Watch V}

/-- A step of the recorder of a function that the pass admits. -/
theorem recorder_step {o : Event V M ⊕ ProbeCall V} (hfile : files i = some file)
    (h : L.external.Recorder src file (blocks i) p o p') :
    (L.recorder src files blocks).step (i, p) (i, o) (i, p') := by
  have hwatches : L.external.Watches src (blocks i) (files i) p o p' := by
    rw [hfile]
    exact .admitted h
  exact ⟨rfl, rfl, hwatches⟩

/-- The recorder of a function that the pass admits goes on with the result of a call. -/
theorem recorder_resume {r : CallResult V M} {e : Event V M} (hfile : files i = some file)
    (h : (L.answering r).Recorder src file (blocks i) p (.inl e) p') :
    (L.recorder src files blocks).resumes (i, p) r (i, .inl e) (i, p') := by
  have hwatches : (L.answering r).Watches src (blocks i) (files i) p (.inl e) p' := by
    rw [hfile]
    exact .admitted h
  exact ⟨rfl, rfl, rfl, hwatches⟩

end Linked

/-! ## Functions with and without instrumentation -/

variable {m : Machine V M} {n : ℕ} {src : Source} {blocks blocks' : List Block}
  {file : Option String}

/-- What the pass made of a body: it was instrumented with this file, or it is as it was. -/
inductive Treated (src : Source) (n : ℕ) : Option String → List Block → List Block → Prop
  | admitted {file : String} {blocks blocks' : List Block} :
      List.Forall₂ (SweptBlock src file n) blocks blocks' → Treated src n (some file) blocks blocks'
  | other {blocks : List Block} : (∀ B ∈ blocks, ∀ I ∈ B, I.id < n) →
      Treated src n none blocks blocks

/-- Without what is new the body is as it was. -/
theorem Treated.erase (h : Treated src n file blocks blocks') :
    blocks'.map (List.filter (Inst.old n)) = blocks := by
  cases h with
  | admitted hblocks =>
    rw [← List.forall₂_eq_eq_eq, List.forall₂_map_left_iff]
    exact hblocks.flip.imp fun B' B hB => filter_old_swept hB.1 hB.2
  | other hblocks =>
    refine (List.map_congr_left fun B hB => ?_).trans (List.map_id _)
    exact List.filter_eq_self.mpr fun I hI => decide_eq_true (hblocks B hB I hI)

/-- The code that remains was there before. -/
def State.Old (n : ℕ) : State V M → Prop
  | .running _ code _ => ∀ I ∈ code, I.id < n
  | .done _ _ => True

/-- The steps of such code are shown as they are. -/
theorem State.Old.step {s s' : State V M} {e : Event V M} (h : s.Old n)
    (hblocks : ∀ B ∈ blocks, ∀ I ∈ B, I.id < n) (hstep : m.Step blocks s e s') :
    e.observe n = some (.inl e) ∧ s'.Old n := by
  cases hstep with
  | next =>
    obtain ⟨hI, hcode⟩ := List.forall_mem_cons.mp h
    exact ⟨by rw [Event.observe, if_pos hI], hcode⟩
  | jump _ hB =>
    have hI := h _ List.mem_cons_self
    exact ⟨by rw [Event.observe, if_pos hI], hblocks _ (List.mem_of_getElem? hB)⟩
  | exit =>
    have hI := h _ List.mem_cons_self
    exact ⟨by rw [Event.observe, if_pos hI], trivial⟩

/-- A running activation and the recorder of its function are at the same place. -/
inductive Places (m : Machine V M) (src : Source) (n : ℕ) :
    Option String → State V M → State V M × Watch V → Prop
  | admitted {file : String} {t : State V M} {p : State V M × Watch V} :
      Position m src file n t p → Places m src n (some file) t p
  | other {s : State V M} {w : Watch V} : s.Old n → Places m src n none s (s, w)

/-- The recorder of a function and a running activation are poised. -/
inductive Poises (m : Machine V M) (src : Source) (n : ℕ) (blocks' : List Block) :
    Option String → State V M × Watch V → State V M → Prop
  | admitted {file : String} {t : State V M} {p : State V M × Watch V} :
      Poised m src file n blocks' p t → Poises m src n blocks' (some file) p t
  | other {s : State V M} {w : Watch V} : s.Old n → Poises m src n blocks' none (s, w) s

/-- An activation that waits for the end of a call, and the recorder of its function, are at the
call. -/
inductive Waits (src : Source) (n : ℕ) :
    Option String → State V M → State V M × Watch V → Prop
  | admitted {file : String} {cur : ℕ} {I : Inst} {code rest : Block} {σ τ : Frame V M}
      {w : Watch V} : σ.Agree n τ → (∀ J ∈ I :: code, J.Proper n) →
      AtInst src file n I code rest w →
      Waits src n (some file) (.running cur (I :: rest) τ) (.running cur (I :: code) σ, w)
  | other {s : State V M} {w : Watch V} : s.Old n → Waits src n none s (s, w)

/-- The steps of an activation are steps of the recorder of its function. -/
theorem simulates_watches (hm : m.NoopCast) (h : Treated src n file blocks blocks') :
    Simulates (m.Step blocks') (m.Watches src blocks file) (Event.observe n)
      (fun o => some (m.shown o)) (Places m src n file) := by
  intro t p e t' hplace hstep
  cases h with
  | admitted hblocks =>
    cases hplace with
    | admitted hpos =>
      obtain ⟨os, p', hos, hview, hpos'⟩ := simulates_recorder hm hblocks t p e t' hpos hstep
      exact ⟨os, p', hos.mono fun _ _ _ => .admitted, hview, .admitted hpos'⟩
  | other hblocks =>
    cases hplace with
    | other hold =>
      obtain ⟨hview, hold'⟩ := hold.step hblocks hstep
      exact ⟨[.inl e], _, .single (.other hstep), by rw [hview]; rfl, .other hold'⟩

/-- The steps of the recorder of a function are steps of the activation. -/
theorem watches_simulates (hm : m.NoopCast) (h : Treated src n file blocks blocks') :
    Simulates (m.Watches src blocks file) (m.Step blocks') (fun o => some (m.shown o))
      (Event.observe n) (Poises m src n blocks' file) := by
  intro p t o p' hpoises hstep
  cases h with
  | admitted hblocks =>
    cases hpoises with
    | admitted hpoised =>
      cases hstep with
      | admitted hstep =>
        obtain ⟨es, t', hes, hview, hpoised'⟩ :=
          recorder_simulates hm hblocks p t o p' hpoised hstep
        exact ⟨es, t', hes, hview, .admitted hpoised'⟩
  | other hblocks =>
    cases hpoises with
    | other hold =>
      cases hstep with
      | other hstep =>
        obtain ⟨hview, hold'⟩ := hold.step hblocks hstep
        exact ⟨[_], _, .single hstep, by simp [hview, Machine.shown], .other hold'⟩

/-! ## Calls -/

variable {L : Linked V M} {f : Call V M}

/-- The call at an instruction depends on what the instruction reads. -/
theorem Linked.AtCall.congr {I : Inst} {cur cur' : ℕ} {code code' : Block} {σ τ : Frame V M}
    (hI : I.Below n) (hagree : σ.Agree n τ) (h : L.AtCall (.running cur (I :: code) σ) f) :
    L.AtCall (.running cur' (I :: code') τ) f := by
  obtain ⟨callee, args, hcalling, hresolve, hargs, hmem⟩ := h
  have hregs : I.op.regs = callee.regs ++ args.flatMap Value.regs := by
    unfold Inst.calling at hcalling
    split at hcalling <;> simp_all [Opcode.regs]
  have hbelow := hI.2
  rw [hregs, List.forall_mem_append] at hbelow
  refine ⟨callee, args, hcalling, ?_, ?_, hmem.trans hagree.mem⟩
  · rw [← Machine.target_congr hagree.regs hbelow.1, hresolve]
  · rw [hargs, Machine.map_eval_congr hagree.regs hbelow.2]

/-- What the walk inserts calls no function of the module. -/
theorem Linked.not_atCall_of_inserted {J : Inst} {cur : ℕ} {code : Block} {τ : Frame V M}
    (hJ : J.Inserted) : ¬ L.AtCall (.running cur (J :: code) τ) f := by
  rintro ⟨callee, args, hcalling, hresolve, -⟩
  cases hJ with
  | load hop | bitcast hop | structGep hop => simp [Inst.calling, hop] at hcalling
  | probe hf hop =>
    obtain ⟨rfl, rfl⟩ : _ = callee ∧ _ = args := by simpa [Inst.calling, hop] using hcalling
    rw [Machine.target, L.probe_external _ hf] at hresolve
    cases hresolve

/-- An activation is at a call only where the recorder of its function can make it. -/
theorem Places.call {t : State V M} {p : State V M × Watch V} (hm : L.machine.NoopCast)
    (h : Places L.external src n file t p) (hcall : L.AtCall t f) :
    (L.AtCall p.1 f ∧ Watch.ExecutesNext src file p) ∧ Waits src n file t p := by
  cases h with
  | other hold => exact ⟨⟨hcall, trivial⟩, .other hold⟩
  | admitted hpos =>
    cases hpos with
    | done => exact absurd hcall not_false
    | @away cur code σ τ hagree hcode =>
      cases code with
      | nil => exact absurd hcall not_false
      | cons I code =>
        have hI := (hcode I List.mem_cons_self).below
        exact ⟨⟨hcall.congr hI hagree.symm, trivial⟩,
          .admitted hagree hcode ⟨trivial, .inl ⟨rfl, rfl⟩⟩⟩
    | @before cur I code behind post ys σ τ w due hagree hcode hnew hyields hw hfollows =>
      cases behind with
      | cons J behind =>
        exact absurd hcall (Linked.not_atCall_of_inserted (hnew J List.mem_cons_self).2)
      | nil =>
        have hI := (hcode I List.mem_cons_self).below
        have hexec : w.Executes src I := by
          rcases hw with ⟨rfl, hw⟩ | ⟨rfl, -⟩
          · exact hw.symm.trans hyields
          · trivial
        exact ⟨⟨hcall.congr hI hagree.symm, hexec⟩, .admitted hagree hcode
          ⟨hexec, .inr ⟨hw.imp And.left And.left, post, ys, rfl, hfollows⟩⟩⟩
    | @after cur code behind ys σ τ w due hagree hcode hnew hyields hdue hswept =>
      cases behind with
      | cons J behind =>
        exact absurd hcall (Linked.not_atCall_of_inserted (hnew J List.mem_cons_self).2)
      | nil =>
        obtain rfl : w = .ready := hdue hyields
        cases code with
        | nil =>
          rw [hswept.nil_inv] at hcall
          exact absurd hcall not_false
        | cons I code =>
          -- Nothing stands before the call, since it is the instruction that comes next.
          obtain ⟨pre, post, zs, rfl, hlaid, hzs⟩ := hswept.cons_inv
          have hI := (hcode I List.mem_cons_self).below
          cases pre with
          | cons J pre =>
            have hJ := hlaid.new_pre J List.mem_cons_self
            exact absurd hcall (Linked.not_atCall_of_inserted hJ.2)
          | nil =>
            have hnoop : L.external.NoopCast := ⟨hm.1, hm.2⟩
            have hexec : src.announces I = false := hlaid.yields_pre hnoop hI hagree
            exact ⟨⟨hcall.congr hI hagree.symm, hexec⟩, .admitted hagree hcode
              ⟨hexec, .inr ⟨.inl rfl, post, zs, rfl, [], hlaid, hzs⟩⟩⟩

/-- The recorder of a function makes a call only where the activation is at it. -/
theorem Poises.call {t : State V M} {p : State V M × Watch V}
    (h : Poises L.external src n blocks' file p t) (hcall : L.AtCall p.1 f)
    (hexec : Watch.ExecutesNext src file p) : L.AtCall t f ∧ Waits src n file t p := by
  cases h with
  | other hold => exact ⟨hcall, .other hold⟩
  | admitted hpoised =>
    cases hpoised with
    | done => exact absurd hcall not_false
    | @away cur code σ τ hagree hcode =>
      cases code with
      | nil => exact absurd hcall not_false
      | cons I code =>
        have hI := (hcode I List.mem_cons_self).below
        exact ⟨hcall.congr hI hagree, .admitted hagree hcode ⟨trivial, .inl ⟨rfl, rfl⟩⟩⟩
    | @told cur I code post ys σ τ hagree hcode hfollows =>
      have hI := (hcode I List.mem_cons_self).below
      exact ⟨hcall.congr hI hagree, .admitted hagree hcode
        ⟨trivial, .inr ⟨.inr rfl, post, ys, rfl, hfollows⟩⟩⟩
    | @ready cur code ys σ τ hagree hcode hswept =>
      cases code with
      | nil => exact absurd hcall not_false
      | cons I code =>
        obtain ⟨pre, post, zs, rfl, hlaid, hzs⟩ := hswept.cons_inv
        have hI := (hcode I List.mem_cons_self).below
        rw [hlaid.pre_of_not_announces hexec, List.nil_append]
        exact ⟨hcall.congr hI hagree, .admitted hagree hcode
          ⟨hexec, .inr ⟨.inl rfl, post, zs, rfl, pre, hlaid, hzs⟩⟩⟩
    | @owes cur code post ys σ τ call hagree hcode hnew hyields hskips hswept =>
      cases code with
      | nil => exact absurd hcall not_false
      | cons I code => exact absurd hexec not_false

/-- A caller goes on with the result of a call, and so does the recorder of its function. -/
theorem Waits.resume (hm : L.machine.NoopCast) (htreated : Treated src n file blocks blocks')
    {t t' : State V M} {p : State V M × Watch V} {r : CallResult V M} {e : Event V M}
    (h : Waits src n file t p) (hstep : (L.answering r).Step blocks' t e t') :
    ∃ p', (L.answering r).Watches src blocks file p (.inl e) p' ∧
      e.observe n = some (.inl e) ∧ Places L.external src n file t' p' := by
  cases htreated with
  | @admitted path blocks blocks' hblocks =>
    cases h with
    | @admitted _ cur I code rest σ τ w hagree hcode hat =>
      have hnoop : L.external.NoopCast := ⟨hm.1, hm.2⟩
      have hsame : (L.answering r).watchAfter src path σ I w =
          L.external.watchAfter src path σ I w := rfl
      obtain ⟨p', hp', hview, hpos⟩ := hat.recorder_exec hnoop hblocks hcode hagree hsame hstep
      exact ⟨p', .admitted hp', hview, .admitted hpos⟩
  | other hblocks =>
    cases h with
    | other hold =>
      obtain ⟨hview, hold'⟩ := hold.step hblocks hstep
      exact ⟨_, .other hstep, hview, .other hold'⟩

/-- The recorder of a caller goes on with the result of a call, and so does the caller. -/
theorem Waits.answer (hm : L.machine.NoopCast) (htreated : Treated src n file blocks blocks')
    {t : State V M} {p p' : State V M × Watch V} {r : CallResult V M} {e : Event V M}
    (h : Waits src n file t p) (hstep : (L.answering r).Watches src blocks file p (.inl e) p') :
    ∃ t', (L.answering r).Step blocks' t e t' ∧
      e.observe n = some (.inl e) ∧ Poises L.external src n blocks' file p' t' := by
  cases htreated with
  | @admitted path blocks blocks' hblocks =>
    cases h with
    | @admitted _ cur I code rest σ τ w hagree hcode hat =>
      cases hstep with
      | admitted hstep =>
        cases hstep with
        | exec hexec hw =>
          have hnoop : L.external.NoopCast := ⟨hm.1, hm.2⟩
          have hsame : (L.answering r).watchAfter src path σ I w =
              L.external.watchAfter src path σ I w := rfl
          obtain ⟨t', ht', hview, hpoised⟩ :=
            hat.instrumented_exec hnoop hblocks hcode hagree hsame hexec
          exact ⟨t', ht', hview, .admitted hpoised⟩
  | other hblocks =>
    cases h with
    | other hold =>
      cases hstep with
      | other hstep =>
        obtain ⟨hview, hold'⟩ := hold.step hblocks hstep
        exact ⟨_, hstep, hview, .other hold'⟩

/-- An activation starts at the same place as the recorder of its function. -/
theorem Treated.places_enter (h : Treated src n file blocks blocks') {k : ℕ} {B' : Block}
    (hB' : blocks'[k]? = some B') (regs : ℕ → V) (mem : M) :
    ∃ B, blocks[k]? = some B ∧
      Places m src n file (.enter B' 0 k regs mem) (.enter B 0 k regs mem, .ready) := by
  cases h with
  | admitted hblocks =>
    obtain ⟨B, hB, hcode, hswept⟩ := exists_getElem_left hblocks hB'
    exact ⟨B, hB, .admitted (.enter (fun _ _ => rfl) hcode hswept)⟩
  | other hblocks => exact ⟨B', hB', .other (hblocks B' (List.mem_of_getElem? hB'))⟩

/-- The recorder of a function starts poised with an activation. -/
theorem Treated.poises_enter (h : Treated src n file blocks blocks') {k : ℕ} {B : Block}
    (hB : blocks[k]? = some B) (regs : ℕ → V) (mem : M) :
    ∃ B', blocks'[k]? = some B' ∧
      Poises m src n blocks' file (.enter B 0 k regs mem, .ready) (.enter B' 0 k regs mem) := by
  cases h with
  | admitted hblocks =>
    obtain ⟨B', hB', hcode, hswept⟩ := exists_getElem_right hblocks hB
    have hagree : Frame.Agree n ⟨regs, regs, 0, mem⟩ ⟨regs, regs, 0, mem⟩ :=
      ⟨fun _ _ => rfl, fun _ _ => rfl, rfl, rfl⟩
    exact ⟨B', hB', .admitted (.ready hagree hcode hswept)⟩
  | other hblocks => exact ⟨B, hB, .other (hblocks B (List.mem_of_getElem? hB))⟩

/-- An activation ends where the recorder of its function does. -/
theorem Places.done {v : Option V} {mem : M} {p : State V M × Watch V}
    (h : Places m src n file (.done v mem) p) : p.1 = .done v mem := by
  cases h with
  | admitted hpos =>
    cases hpos with
    | done => rfl
  | other => rfl

/-- The recorder of a function ends where an activation does. -/
theorem Poises.done {v : Option V} {mem : M} {w : Watch V} {t : State V M}
    (h : Poises m src n blocks' file (.done v mem, w) t) : t = .done v mem := by
  cases h with
  | admitted hpoised =>
    cases hpoised with
    | done => rfl
  | other => rfl

variable {ns : ℕ → ℕ} {files : ℕ → Option String} {bodies bodies' : ℕ → List Block}

/-- The program is executed as its recorder says. -/
theorem Linked.procedures_simulated (hm : L.machine.NoopCast)
    (h : ∀ i, Treated src (ns i) (files i) (bodies i) (bodies' i)) :
    (L.procedures bodies').Simulated (L.recorder src files bodies)
      (taggedView fun i => Event.observe (ns i)) (taggedView fun _ o => some (L.machine.shown o))
      (fun t p => p.1 = t.1 ∧ Places L.external src (ns t.1) (files t.1) t.2 p.2)
      fun t p => p.1 = t.1 ∧ Waits src (ns t.1) (files t.1) t.2 p.2 where
  step := Simulates.tagged fun i => simulates_watches (m := L.external) ⟨hm.1, hm.2⟩ (h i)
  call := by
    rintro ⟨i, t⟩ ⟨j, p⟩ f ⟨hj, hplaces⟩ hcall
    obtain rfl : i = j := hj.symm
    obtain ⟨hcall', hwaits⟩ := hplaces.call hm hcall
    exact ⟨[], (i, p), .nil _, rfl, hcall', rfl, hwaits⟩
  start := by
    rintro f ⟨i, t⟩ ⟨rfl, B', hB', rfl⟩
    obtain ⟨B, hB, hplaces⟩ := (h f.callee).places_enter hB' (L.entry f.callee f.args) f.mem
    exact ⟨(f.callee, _, .ready), ⟨rfl, ⟨B, hB, rfl⟩, rfl⟩, rfl, hplaces⟩
  finish := by
    rintro ⟨i, t⟩ ⟨j, p⟩ r ⟨hj, hplaces⟩ ⟨v, mem, rfl, rfl⟩
    exact ⟨v, mem, hplaces.done, rfl⟩
  resume := by
    rintro ⟨i, t⟩ ⟨j, p⟩ r ⟨k, e⟩ ⟨l, t'⟩ ⟨hj, hwaits⟩ ⟨hk, hl, hstep⟩
    obtain rfl : i = j := hj.symm
    obtain rfl : i = k := hk.symm
    obtain rfl : i = l := hl.symm
    obtain ⟨p', hp', hview, hplaces⟩ := hwaits.resume hm (h i) hstep
    refine ⟨(i, .inl e), (i, p'), ⟨rfl, rfl, rfl, hp'⟩, ?_, rfl, hplaces⟩
    simp only [taggedView]
    rw [hview]
    rfl

/-- The recorder of the program is executed by the program. -/
theorem Linked.recorder_simulated (hm : L.machine.NoopCast)
    (h : ∀ i, Treated src (ns i) (files i) (bodies i) (bodies' i)) :
    (L.recorder src files bodies).Simulated (L.procedures bodies')
      (taggedView fun _ o => some (L.machine.shown o)) (taggedView fun i => Event.observe (ns i))
      (fun p t => t.1 = p.1 ∧ Poises L.external src (ns p.1) (bodies' p.1) (files p.1) p.2 t.2)
      fun p t => t.1 = p.1 ∧ Waits src (ns p.1) (files p.1) t.2 p.2 where
  step := Simulates.tagged fun i => watches_simulates (m := L.external) ⟨hm.1, hm.2⟩ (h i)
  call := by
    rintro ⟨i, p⟩ ⟨j, t⟩ f ⟨hj, hpoises⟩ ⟨hcall, hexec⟩
    obtain rfl : i = j := hj.symm
    obtain ⟨hcall', hwaits⟩ := hpoises.call hcall hexec
    exact ⟨[], (i, t), .nil _, rfl, hcall', rfl, hwaits⟩
  start := by
    rintro f ⟨i, s, w⟩ ⟨hi, ⟨B, hB, hs⟩, hw⟩
    obtain rfl : i = f.callee := hi
    obtain rfl : w = .ready := hw
    obtain rfl : s = .enter B 0 0 (L.entry f.callee f.args) f.mem := hs
    obtain ⟨B', hB', hpoises⟩ := (h f.callee).poises_enter hB (L.entry f.callee f.args) f.mem
    exact ⟨(f.callee, _), ⟨rfl, B', hB', rfl⟩, rfl, hpoises⟩
  finish := by
    rintro ⟨i, s, w⟩ ⟨j, t⟩ r ⟨hj, hpoises⟩ ⟨v, mem, hs, rfl⟩
    obtain rfl : s = .done v mem := hs
    exact ⟨v, mem, hpoises.done, rfl⟩
  resume := by
    rintro ⟨i, p⟩ ⟨j, t⟩ r ⟨k, o⟩ ⟨l, p'⟩ ⟨hj, hwaits⟩ ⟨hleft, hk, hl, hstep⟩
    obtain rfl : i = j := hj.symm
    obtain rfl : i = k := hk.symm
    obtain rfl : i = l := hl.symm
    obtain ⟨e, rfl⟩ : ∃ e, o = .inl e := Sum.isLeft_iff.mp hleft
    obtain ⟨t', ht', hview, hpoises⟩ := hwaits.answer hm (h i) hstep
    refine ⟨(i, e), (i, t'), ⟨rfl, rfl, ht'⟩, ?_, rfl, hpoises⟩
    simp only [taggedView]
    rw [hview]
    rfl

/-! ## The same place -/

/-- Old code is at the same place as itself. -/
theorem State.Old.matches {s : State V M} (h : s.Old n) : Matches n s s := by
  cases s with
  | running cur code σ =>
    refine .running ⟨fun _ _ => rfl, fun _ _ => rfl, rfl, rfl⟩ (List.filter_eq_self.mpr ?_)
    simpa [Inst.old, State.Old] using h
  | done v mem => exact .done v mem

/-- An activation and the recorder of its function are at the same place of the original. -/
theorem Places.matches {t : State V M} {p : State V M × Watch V}
    (h : Places m src n file t p) : Matches n p.1 t := by
  cases h with
  | admitted hpos => exact hpos.matches
  | other hold => exact hold.matches

/-- So they are where they are poised. -/
theorem Poises.matches {t : State V M} {p : State V M × Watch V}
    (h : Poises m src n blocks' file p t) : Matches n p.1 t := by
  cases h with
  | admitted hpoised => exact hpoised.matches
  | other hold => exact hold.matches

/-- And where the activation waits. -/
theorem Waits.matches {t : State V M} {p : State V M × Watch V} (h : Waits src n file t p) :
    Matches n p.1 t := by
  cases h with
  | other hold => exact hold.matches
  | @admitted _ cur I code rest σ τ w hagree hcode hat =>
    obtain ⟨hI, hcode'⟩ := List.forall_mem_cons.mp hcode
    have hold : Inst.old n I = true := by simpa [Inst.old] using hI.below.1
    refine .running hagree ?_
    rw [List.filter_cons_of_pos hold]
    obtain ⟨-, ⟨-, rfl⟩ | ⟨-, post, ys, rfl, hfollows⟩⟩ := hat
    · rw [filter_old_proper hcode']
    · rw [hfollows.filter_old hcode']

/-- The program and its recorder answer each other: what a run of a call shows in one, a run of the
call shows in the other, and all activations are at the same places of the original. -/
theorem Linked.answers (hm : L.machine.NoopCast)
    (h : ∀ i, Treated src (ns i) (files i) (bodies i) (bodies' i)) :
    (L.procedures bodies').Answers (L.recorder src files bodies)
        (taggedView fun i => Event.observe (ns i)) (taggedView fun _ o => some (L.machine.shown o))
        (fun t p => p.1 = t.1 ∧ Matches (ns t.1) p.2.1 t.2) ∧
      (L.recorder src files bodies).Answers (L.procedures bodies')
        (taggedView fun _ o => some (L.machine.shown o)) (taggedView fun i => Event.observe (ns i))
        fun p t => t.1 = p.1 ∧ Matches (ns p.1) p.2.1 t.2 :=
  ⟨(L.procedures_simulated hm h).answers (fun _ _ h => ⟨h.1, h.2.matches⟩)
      fun _ _ h => ⟨h.1, h.2.matches⟩,
    (L.recorder_simulated hm h).answers (fun _ _ h => ⟨h.1, h.2.matches⟩)
      fun _ _ h => ⟨h.1, h.2.matches⟩⟩

end AtomicityViolation
