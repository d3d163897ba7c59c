import Mathlib.Logic.Function.Basic
import AtomicityViolation.Ir.Syntax

/-!
# The meaning of a function body

A body is executed instruction by instruction, on the registers of its activation and a memory. What
values and memories are, what the instructions compute and what calls do is left to a `Machine`;
all that is asked of it is that a call of `_probe_` or `_probe_lock_` returns and leaves the memory
as it is. Calls and the instructions that the pass does not know may have any number of outcomes. A
step shows the call that was made, the branch that was taken, and the memory that it leaves.
-/

namespace AtomicityViolation

/-- What a call or an invoke calls, with the called operand evaluated. -/
inductive Target (V : Type*) where
  | function (name : String)
  | pointer (v : V)
  | inlineAsm (text : String)

/-- How a call ends: it returns a value or unwinds, and leaves a memory. -/
inductive CallResult (V M : Type*) where
  | returned (v : V) (mem : M)
  | unwound (mem : M)

/-- What an instruction does next: go on, go to a block, or leave the function. The value is its
result. -/
inductive Outcome (V M : Type*) where
  | next (v : Option V) (mem : M)
  | jump (v : Option V) (target : ℕ) (mem : M)
  | exit (v : Option V) (mem : M)

/-- The functions of the runtime that record. -/
def isProbe (f : String) : Bool := f == "_probe_" || f == "_probe_lock_"

/-- What a body is executed on. -/
structure Machine (V M : Type*) where
  /-- The value of a constant. -/
  const : Const → Ty → V
  /-- A bitcast to a type. -/
  cast : Ty → V → V
  /-- The address of field 0, of the given pointer type, of what a value points to. -/
  field0 : Ty → V → V
  /-- Loading a value of a type. An address that is not valid has none. -/
  load : Ty → V → M → Option V
  /-- Storing a value at an address. -/
  store : V → V → M → Option M
  /-- The outcomes of a call. -/
  call : Target V → List V → M → CallResult V M → Prop
  /-- The outcomes of any other instruction, by its name, its operands and their values. -/
  other : String → List Value → List V → M → Outcome V M → Prop
  /-- A probe returns. -/
  probe_returns : ∀ f args mem, isProbe f = true →
    ∃ v, call (.function f) args mem (.returned v mem)
  /-- A probe leaves the memory as it is. -/
  probe_silent : ∀ f args mem r, isProbe f = true → call (.function f) args mem r →
    ∃ v, r = .returned v mem

variable {V M : Type*}

/-- What an instruction is executed in: the registers, those at the entry of the block and the block
before it, which PHIs read, and the memory. -/
structure Frame (V M : Type*) where
  regs : ℕ → V
  entry : ℕ → V
  prev : ℕ
  mem : M

/-- A call that was made. -/
structure Called (V M : Type*) where
  target : Target V
  args : List V
  result : CallResult V M

namespace Machine

variable (m : Machine V M)

/-- The value of an operand. -/
def eval (regs : ℕ → V) : Value → V
  | .const c ty => m.const c ty
  | .reg id _ => regs id

/-- The called operand, evaluated. -/
def target (regs : ℕ → V) : Callee → Target V
  | .direct name => .function name
  | .indirect v => .pointer (m.eval regs v)
  | .inlineAsm text => .inlineAsm text

/-- The execution of an instruction in a frame, with the call that it makes. -/
inductive Exec (σ : Frame V M) (I : Inst) : Option (Called V M) → Outcome V M → Prop
  | store {val ptr : Value} {mem : M} : I.op = .store val ptr →
      m.store (m.eval σ.regs val) (m.eval σ.regs ptr) σ.mem = some mem →
      Exec σ I none (.next none mem)
  | load {ptr : Value} {v : V} : I.op = .load ptr →
      m.load I.ty (m.eval σ.regs ptr) σ.mem = some v → Exec σ I none (.next (some v) σ.mem)
  | bitcast {val : Value} : I.op = .bitcast val →
      Exec σ I none (.next (some (m.cast I.ty (m.eval σ.regs val))) σ.mem)
  | structGep {ptr : Value} : I.op = .structGep ptr →
      Exec σ I none (.next (some (m.field0 I.ty (m.eval σ.regs ptr))) σ.mem)
  | phi {incoming : List (ℕ × Value)} {val : Value} : I.op = .phi incoming →
      (σ.prev, val) ∈ incoming → Exec σ I none (.next (some (m.eval σ.entry val)) σ.mem)
  | callReturned {callee : Callee} {args : List Value} {v : V} {mem : M} :
      I.op = .call callee args →
      m.call (m.target σ.regs callee) (args.map (m.eval σ.regs)) σ.mem (.returned v mem) →
      Exec σ I (some ⟨m.target σ.regs callee, args.map (m.eval σ.regs), .returned v mem⟩)
        (.next (some v) mem)
  | callUnwound {callee : Callee} {args : List Value} {mem : M} : I.op = .call callee args →
      m.call (m.target σ.regs callee) (args.map (m.eval σ.regs)) σ.mem (.unwound mem) →
      Exec σ I (some ⟨m.target σ.regs callee, args.map (m.eval σ.regs), .unwound mem⟩)
        (.exit none mem)
  | invokeReturned {callee : Callee} {args : List Value} {normal unwind : ℕ} {v : V} {mem : M} :
      I.op = .invoke callee args normal unwind →
      m.call (m.target σ.regs callee) (args.map (m.eval σ.regs)) σ.mem (.returned v mem) →
      Exec σ I (some ⟨m.target σ.regs callee, args.map (m.eval σ.regs), .returned v mem⟩)
        (.jump (some v) normal mem)
  | invokeUnwound {callee : Callee} {args : List Value} {normal unwind : ℕ} {mem : M} :
      I.op = .invoke callee args normal unwind →
      m.call (m.target σ.regs callee) (args.map (m.eval σ.regs)) σ.mem (.unwound mem) →
      Exec σ I (some ⟨m.target σ.regs callee, args.map (m.eval σ.regs), .unwound mem⟩)
        (.jump none unwind mem)
  | other {name : String} {operands : List Value} {o : Outcome V M} :
      I.op = .other name operands →
      m.other name operands (operands.map (m.eval σ.regs)) σ.mem o → Exec σ I none o

/-- A call of a function by its name, with the values of its arguments. -/
theorem Exec.returned_direct {m : Machine V M} {σ : Frame V M} {I : Inst} {name : String}
    {args : List Value} {vals : List V} {v : V} {mem : M} (hop : I.op = .call (.direct name) args)
    (hvals : args.map (m.eval σ.regs) = vals)
    (hcall : m.call (.function name) vals σ.mem (.returned v mem)) :
    m.Exec σ I (some ⟨.function name, vals, .returned v mem⟩) (.next (some v) mem) := by
  subst hvals
  exact .callReturned hop hcall

end Machine

/-! ## Runs of a body -/

/-- The registers after an instruction with a result. -/
def setResult (regs : ℕ → V) (id : ℕ) : Option V → ℕ → V
  | none => regs
  | some v => Function.update regs id v

/-- A state of an activation: in a block, with the instructions still to be executed there, or after
it left the function. -/
inductive State (V M : Type*) where
  | running (cur : ℕ) (code : Block) (σ : Frame V M)
  | done (v : Option V) (mem : M)

/-- What a step shows: the instruction, the call it made, the block it went to, and the memory
afterwards. -/
structure Event (V M : Type*) where
  id : ℕ
  called : Option (Called V M)
  branch : Option ℕ
  mem : M

/-- The state at the start of a block. -/
def State.enter (B : Block) (prev cur : ℕ) (regs : ℕ → V) (mem : M) : State V M :=
  .running cur B ⟨regs, regs, prev, mem⟩

/-- The steps of a body with the given blocks. -/
inductive Machine.Step (m : Machine V M) (blocks : List Block) :
    State V M → Event V M → State V M → Prop
  | next {cur : ℕ} {I : Inst} {code : Block} {σ : Frame V M} {c : Option (Called V M)}
      {v : Option V} {mem : M} : m.Exec σ I c (.next v mem) →
      Step m blocks (.running cur (I :: code) σ) ⟨I.id, c, none, mem⟩
        (.running cur code { σ with regs := setResult σ.regs I.id v, mem })
  | jump {cur k : ℕ} {I : Inst} {code B : Block} {σ : Frame V M} {c : Option (Called V M)}
      {v : Option V} {mem : M} : m.Exec σ I c (.jump v k mem) → blocks[k]? = some B →
      Step m blocks (.running cur (I :: code) σ) ⟨I.id, c, some k, mem⟩
        (.enter B cur k (setResult σ.regs I.id v) mem)
  | exit {cur : ℕ} {I : Inst} {code : Block} {σ : Frame V M} {c : Option (Called V M)}
      {v : Option V} {mem : M} : m.Exec σ I c (.exit v mem) →
      Step m blocks (.running cur (I :: code) σ) ⟨I.id, c, none, mem⟩ (.done v mem)

/-! ## What an execution depends on -/

/-- Register files that agree below `n`. -/
def AgreeBelow (n : ℕ) (r r' : ℕ → V) : Prop := ∀ i < n, r i = r' i

/-- Frames that agree on all that an instruction below `n` reads. -/
structure Frame.Agree (n : ℕ) (σ τ : Frame V M) : Prop where
  /-- The registers agree. -/
  regs : AgreeBelow n σ.regs τ.regs
  /-- The registers at the entry of the block agree. -/
  entry : AgreeBelow n σ.entry τ.entry
  /-- The control came from the same block. -/
  prev : σ.prev = τ.prev
  /-- The memories are the same. -/
  mem : σ.mem = τ.mem

/-- Agreement has no direction. -/
theorem Frame.Agree.symm {n : ℕ} {σ τ : Frame V M} (h : σ.Agree n τ) : τ.Agree n σ :=
  ⟨fun i hi => (h.regs i hi).symm, fun i hi => (h.entry i hi).symm, h.prev.symm, h.mem.symm⟩

/-- Agreement is passed on. -/
theorem Frame.Agree.trans {n : ℕ} {σ τ υ : Frame V M} (h : σ.Agree n τ) (h' : τ.Agree n υ) :
    σ.Agree n υ :=
  ⟨fun i hi => (h.regs i hi).trans (h'.regs i hi), fun i hi => (h.entry i hi).trans (h'.entry i hi),
    h.prev.trans h'.prev, h.mem.trans h'.mem⟩

namespace Machine

variable {m : Machine V M} {n : ℕ} {r r' : ℕ → V} {σ τ : Frame V M} {I : Inst}

/-- The value of an operand depends on the registers it reads. -/
theorem eval_congr (h : AgreeBelow n r r') {v : Value} (hv : ∀ i ∈ v.regs, i < n) :
    m.eval r v = m.eval r' v := by
  cases v with
  | const c ty => rfl
  | reg id ty => exact h id (hv id (List.mem_singleton.mpr rfl))

/-- The values of operands depend on the registers they read. -/
theorem map_eval_congr (h : AgreeBelow n r r') {vs : List Value}
    (hv : ∀ i ∈ vs.flatMap Value.regs, i < n) : vs.map (m.eval r) = vs.map (m.eval r') := by
  refine List.map_congr_left fun v hmem => eval_congr h fun i hi => hv i ?_
  exact List.mem_flatMap.mpr ⟨v, hmem, hi⟩

/-- What is called depends on the registers the called operand reads. -/
theorem target_congr (h : AgreeBelow n r r') {callee : Callee} (hv : ∀ i ∈ callee.regs, i < n) :
    m.target r callee = m.target r' callee := by
  cases callee with
  | direct | inlineAsm => rfl
  | indirect v => exact congrArg _ (eval_congr h hv)

/-- The execution of an instruction depends on what it reads. -/
theorem Exec.congr (h : σ.Agree n τ) (hI : ∀ i ∈ I.op.regs, i < n) {c : Option (Called V M)}
    {o : Outcome V M} (hexec : m.Exec σ I c o) : m.Exec τ I c o := by
  -- What is called and with what arguments, for the four ways in which a call can end.
  have hcall : ∀ {callee : Callee} {args : List Value},
      (∀ i ∈ callee.regs ++ args.flatMap Value.regs, i < n) →
      m.target σ.regs callee = m.target τ.regs callee ∧
        args.map (m.eval σ.regs) = args.map (m.eval τ.regs) := fun hregs =>
    ⟨target_congr h.regs fun i hi => hregs i (List.mem_append_left _ hi),
      map_eval_congr h.regs fun i hi => hregs i (List.mem_append_right _ hi)⟩
  cases hexec with
  | @store val ptr mem hop hstore =>
    rw [hop] at hI
    refine .store hop ?_
    rw [← eval_congr h.regs fun i hi => hI i (List.mem_append_left _ hi),
      ← eval_congr h.regs fun i hi => hI i (List.mem_append_right _ hi), ← h.mem]
    exact hstore
  | @load ptr v hop hload =>
    rw [hop] at hI
    rw [eval_congr h.regs hI, h.mem] at hload
    rw [h.mem]
    exact .load hop hload
  | bitcast hop =>
    rw [hop] at hI
    rw [eval_congr h.regs hI, h.mem]
    exact .bitcast hop
  | structGep hop =>
    rw [hop] at hI
    rw [eval_congr h.regs hI, h.mem]
    exact .structGep hop
  | @phi incoming val hop hin =>
    rw [hop] at hI
    -- A PHI reads the registers as they were when the block was entered.
    rw [h.prev] at hin
    rw [h.mem, eval_congr h.entry fun i hi => hI i (List.mem_flatMap.mpr ⟨_, hin, hi⟩)]
    exact .phi hop hin
  | callReturned hop hres =>
    rw [hop] at hI
    obtain ⟨htarget, hargs⟩ := hcall hI
    rw [htarget, hargs] at hres ⊢
    exact .callReturned hop (h.mem ▸ hres)
  | callUnwound hop hres =>
    rw [hop] at hI
    obtain ⟨htarget, hargs⟩ := hcall hI
    rw [htarget, hargs] at hres ⊢
    exact .callUnwound hop (h.mem ▸ hres)
  | invokeReturned hop hres =>
    rw [hop] at hI
    obtain ⟨htarget, hargs⟩ := hcall hI
    rw [htarget, hargs] at hres ⊢
    exact .invokeReturned hop (h.mem ▸ hres)
  | invokeUnwound hop hres =>
    rw [hop] at hI
    obtain ⟨htarget, hargs⟩ := hcall hI
    rw [htarget, hargs] at hres ⊢
    exact .invokeUnwound hop (h.mem ▸ hres)
  | other hop hres =>
    rw [hop] at hI
    rw [map_eval_congr h.regs hI, h.mem] at hres
    exact .other hop hres

end Machine

/-- Register files stay in agreement when the same result is set in both. -/
theorem AgreeBelow.set {n : ℕ} {r r' : ℕ → V} (h : AgreeBelow n r r') (id : ℕ) (v : Option V) :
    AgreeBelow n (setResult r id v) (setResult r' id v) := by
  cases v with
  | none => exact h
  | some v =>
    intro i hi
    by_cases hid : i = id
    · simp [setResult, hid]
    · simp [setResult, hid, h i hi]

/-- A result that is set in a register from `n` on is not seen below. -/
theorem AgreeBelow.set_right {n : ℕ} {r r' : ℕ → V} (h : AgreeBelow n r r') {id : ℕ}
    (hid : n ≤ id) (v : Option V) : AgreeBelow n r (setResult r' id v) := by
  cases v with
  | none => exact h
  | some v =>
    intro i hi
    rw [setResult, Function.update_of_ne (by omega)]
    exact h i hi

end AtomicityViolation
