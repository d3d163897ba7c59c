import AtomicityViolation.Pass.Preserve

/-!
# The steps of instrumented code

What the log can tell of a body is a sequence of steps: the calls of the probes, the loads and
stores, and the operations on locks. `Operation.steps` is how the operations of a program are laid
out, a store behind its probe, a load before it, and a lock operation behind it, and
`Source.steps_walk` shows that the steps of the blocks after the walk are the layouts of the
operations in the blocks before it. The threads of `Concurrency/Machine.lean` take steps that are
laid out the same way (`Threads.steps_run`).
-/

namespace AtomicityViolation

open Cursor (reached unreached)
open Weave (Woven)

/-- A step of instrumented code: a probe, by the text of the operation that it records, an access,
or an operation on a lock. -/
inductive CodeStep where
  | probe (text : String)
  | access (op : Op)
  | lock (role : Role)
  deriving DecidableEq, Repr

/-- An operation of a program: an access that is probed or not, and an operation on a lock that is
probed or not. -/
inductive Operation where
  | access (op : Op) (probed : Bool)
  | lock (op : Op)
  | bareLock (role : Role)
  deriving DecidableEq, Repr

/-- The steps of an operation. -/
def Operation.steps : Operation → List CodeStep
  | .access .load true => [.access .load, .probe Op.load.text]
  | .access op true => [.probe op.text, .access op]
  | .access op false => [.access op]
  | .lock op => [.probe op.text, .lock op.role]
  | .bareLock role => [.lock role]

/-- The operation that a call of a probe records, as it stands in its arguments. -/
def Inst.probed (J : Inst) : Option String :=
  match J.op with
  | .call (.direct f) [_, _, .const (.str text) _, _] => if isProbe f then some text else none
  | _ => none

/-- The steps of an instruction of an instrumented body: what the walk inserted has the identities
from `n` on. -/
def Source.codeSteps (src : Source) (n : ℕ) (J : Inst) : List CodeStep :=
  if n ≤ J.id then (J.probed.map CodeStep.probe).toList
  else match J.op with
    | .store _ _ => [.access .store]
    | .load _ => [.access .load]
    | _ => ((src.site J).map fun s => CodeStep.lock s.arm.op.role).toList

/-- The operations of an original instruction, where the walk comes to it and where it does not. -/
def Source.operations (src : Source) (visited : Bool) (I : Inst) : List Operation :=
  match I.op with
  | .store _ _ => [.access .store (visited && I.dbg.isSome)]
  | .load _ => [.access .load (visited && I.dbg.isSome)]
  | _ => ((src.site I).map fun s =>
      if visited then Operation.lock s.arm.op else .bareLock s.arm.op.role).toList

variable {src : Source} {file : String} {n : ℕ} {I : Inst} {pre post : List Inst}

/-- Inserted instructions that call nothing take no step. -/
theorem flatMap_codeSteps_nil {insts : List Inst} (hnew : ∀ J ∈ insts, n ≤ J.id)
    (h : ∀ J ∈ insts, J.probed = none) : insts.flatMap (src.codeSteps n) = [] := by
  rw [List.flatMap_eq_nil_iff]
  intro J hJ
  simp [Source.codeSteps, hnew J hJ, h J hJ]

/-- A cast calls nothing. -/
theorem CastOf.probed {v addr : Value} {cast : List Inst} (h : CastOf v cast addr) :
    ∀ J ∈ cast, J.probed = none := by
  cases h with
  | same | folded => simp
  | inst hop => simp [Inst.probed, hop]

/-- The computation of a lock's address calls nothing. -/
theorem RouteOf.probed {args : List Value} {r : Route} {insts : List Inst} {lock : Value}
    (h : RouteOf args r insts lock) : ∀ J ∈ insts, J.probed = none := by
  cases h with
  | argument => simp
  | guardValue _ hop => simp [Inst.probed, hop]
  | @guardField _ _ J K gep _ hJ _ hgep hK _ =>
    have hgepNone : ∀ G ∈ gep, G.probed = none := by
      cases hgep with
      | folded => simp
      | inst _ hG _ => simp [Inst.probed, hG]
    intro I hI
    simp only [List.mem_cons, List.mem_append, List.not_mem_nil, or_false] at hI
    rcases hI with rfl | hI | rfl
    · simp [Inst.probed, hJ]
    · exact hgepNone I hI
    · simp [Inst.probed, hK]

/-- An inserted probe is one step. -/
theorem Inst.Probes.codeSteps {J : Inst} {f : String} {loc : Line} {op : Op} {addr : Value}
    (h : J.Probes f loc file op addr) (hf : isProbe f = true) (hnew : n ≤ J.id) :
    src.codeSteps n J = [.probe op.text] := by
  have hprobed : J.probed = some op.text := by
    rw [Inst.probed, show J.op = _ from h]
    simp [probeArgs, hf]
  simp [Source.codeSteps, hnew, hprobed]

/-- The steps of an original instruction. -/
theorem Source.codeSteps_old (hI : I.id < n) :
    src.codeSteps n I = (src.operations false I).flatMap Operation.steps := by
  have hold : ¬ n ≤ I.id := by omega
  unfold Source.codeSteps Source.operations
  rw [if_neg hold]
  split
  · rfl
  · rfl
  · cases src.site I <;> rfl

/-- The instruction of an access. -/
theorem Inst.of_access {op : Op} {ptr : Value} {loc : Line} (h : I.access = some (op, ptr, loc)) :
    I.dbg = some loc ∧
      ((∃ val, I.op = .store val ptr) ∧ op = .store ∨ I.op = .load ptr ∧ op = .load) := by
  unfold Inst.access at h
  split at h
  next val ptr' loc' hop hdbg =>
    simp only [Option.some.injEq, Prod.mk.injEq] at h
    obtain ⟨rfl, rfl, rfl⟩ := h
    exact ⟨hdbg, .inl ⟨⟨val, hop⟩, rfl⟩⟩
  next ptr' loc' hop hdbg =>
    simp only [Option.some.injEq, Prod.mk.injEq] at h
    obtain ⟨rfl, rfl, rfl⟩ := h
    exact ⟨hdbg, .inr ⟨hop, rfl⟩⟩
  next => cases h

/-- An instruction at which an arm is selected is neither a load nor a store. -/
theorem operations_of_site {s : Site} (h : src.site I = some s) (visited : Bool) :
    src.operations visited I =
      [if visited then .lock s.arm.op else .bareLock s.arm.op.role] := by
  obtain ⟨id, ty, op, dbg⟩ := I
  cases op with
  | store val ptr => cases src <;> simp [Source.site, site] at h
  | load ptr => cases src <;> simp [Source.site, site] at h
  | _ => simp [Source.operations, h]

/-- The steps of an instruction with what the walk puts around it are those of its operations. -/
theorem Laid.codeSteps (h : Laid src file n I pre post) (hI : I.id < n) :
    pre.flatMap (src.codeSteps n) ++ src.codeSteps n I ++ post.flatMap (src.codeSteps n) =
      (src.operations true I).flatMap Operation.steps := by
  obtain ⟨hshape, hnew⟩ := h
  rw [src.codeSteps_old hI]
  cases hshape with
  | @store ptr addr loc cast probe hacc hcast hprobe =>
    -- The probe, then the store.
    rw [List.append_nil, List.forall_mem_append, List.forall_mem_singleton] at hnew
    rw [List.flatMap_append, flatMap_codeSteps_nil hnew.1 hcast.probed, List.flatMap_singleton,
      hprobe.codeSteps (by decide) hnew.2]
    obtain ⟨hdbg, ⟨⟨val, hop⟩, -⟩ | ⟨-, hload⟩⟩ := Inst.of_access hacc
    · simp [Source.operations, hop, hdbg, Operation.steps]
    · cases hload
  | @load ptr addr loc cast probe hacc hcast hprobe =>
    -- The load, then the probe.
    rw [List.nil_append, List.forall_mem_append, List.forall_mem_singleton] at hnew
    rw [List.flatMap_append, flatMap_codeSteps_nil hnew.1 hcast.probed, List.flatMap_singleton,
      hprobe.codeSteps (by decide) hnew.2]
    obtain ⟨hdbg, ⟨-, hstore⟩ | ⟨hop, -⟩⟩ := Inst.of_access hacc
    · cases hstore
    · simp [Source.operations, hop, hdbg, Operation.steps]
  | @lock s lock addr route cast probe hsite hroute hcast hprobe =>
    -- The loads of the guard are of new registers and show no step, so the probe comes first.
    simp only [List.append_nil, List.forall_mem_append, List.forall_mem_singleton] at hnew
    rw [List.flatMap_append, List.flatMap_append, flatMap_codeSteps_nil hnew.1 hroute.probed,
      flatMap_codeSteps_nil hnew.2.1 hcast.probed, List.flatMap_singleton,
      hprobe.codeSteps (by decide) hnew.2.2, operations_of_site hsite, operations_of_site hsite]
    rfl
  | other hacc hsite =>
    -- Without a debug location, an access is alone.
    obtain ⟨id, ty, op, dbg⟩ := I
    cases op with
    | store | load =>
      cases dbg with
      | none => rfl
      | some loc => cases hacc
    | _ => simp [Source.operations, hsite]

/-- The steps of a swept block are those of its operations: the ones that were visited are probed,
and the ones behind the place where the walk left are not. -/
theorem Source.steps_block {B B' : Block} (hB : ∀ I ∈ B, I.Below n)
    (h : Cursor.SweptTo src.leaves (Laid src file n) B B') :
    B'.flatMap (src.codeSteps n) = ((reached src.leaves B).flatMap (src.operations true) ++
      (unreached src.leaves B).flatMap (src.operations false)).flatMap Operation.steps := by
  obtain ⟨zs, rfl, hwoven⟩ := h
  have hsplit := Cursor.reached_append_unreached src.leaves B
  have hzs : zs.flatMap (src.codeSteps n) =
      (reached src.leaves B).flatMap fun I => (src.operations true I).flatMap Operation.steps :=
    hwoven.flatMap_eq fun I hI pre post hlaid =>
      hlaid.codeSteps (hB I (Cursor.mem_of_mem_reached hI)).1
  have hrest : ∀ I ∈ unreached src.leaves B,
      src.codeSteps n I = (src.operations false I).flatMap Operation.steps :=
    fun I hI => src.codeSteps_old (hB I (hsplit ▸ List.mem_append_right _ hI)).1
  calc (zs ++ unreached src.leaves B).flatMap (src.codeSteps n)
      = zs.flatMap (src.codeSteps n) ++ (unreached src.leaves B).flatMap (src.codeSteps n) :=
        List.flatMap_append
    _ = ((reached src.leaves B).flatMap fun I => (src.operations true I).flatMap Operation.steps) ++
        (unreached src.leaves B).flatMap fun I =>
          (src.operations false I).flatMap Operation.steps := by
        rw [hzs, List.flatMap_congr hrest]
    _ = _ := by rw [List.flatMap_append, List.flatMap_assoc, List.flatMap_assoc]

/-- The layout of instrumented code. The steps of each block after the walk are those of the
operations of the block before it. -/
theorem Source.steps_walk {F : Body} {out : ℕ × List Block}
    (h : src.Walks file F.next F.blocks out) :
    List.Forall₂ (fun B B' => B'.flatMap (src.codeSteps F.next) =
      ((reached src.leaves B).flatMap (src.operations true) ++
        (unreached src.leaves B).flatMap (src.operations false)).flatMap Operation.steps)
      F.blocks out.2 := by
  have hboth := (List.forall₂_and_left _ _).mpr ⟨F.below, h.sweptTo⟩
  exact hboth.imp fun B B' hB => Source.steps_block hB.1 hB.2

end AtomicityViolation
