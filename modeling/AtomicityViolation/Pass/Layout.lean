import AtomicityViolation.Pass.Walk

/-!
# What the walk puts around an instruction

The shape of the insertions, read off the source without the builder: around a load or store with a
debug location a bitcast of its address and the call of `_probe_` (`Inst.access`), before a lock
operation that an arm of the version recognises (`site`) the computation of the lock's address, its
bitcast and the call of `_probe_lock_`, and nothing around any other instruction. `Shape` is the
relation between an instruction and the two runs around it, and `Source.visits` shows that the
visits of either version insert nothing else. With `Source.settles`, that what stands behind a load
is passed over, the rules of `Library/Cursor.lean` give what the two loops make of a body.
-/

namespace AtomicityViolation

open Cursor (Visit Visits Settles)

/-! ## What is instrumented -/

/-- A load or a store with a debug location: its operation, its pointer operand and its line. -/
def Inst.access (I : Inst) : Option (Op × Value × Line) :=
  match I.op, I.dbg with
  | .store _ ptr, some loc => some (.store, ptr, loc)
  | .load ptr, some loc => some (.load, ptr, loc)
  | _, _ => none

/-- A call or invoke that an arm recognises. -/
structure Site where
  arm : Arm
  loc : Line
  args : List Value
  deriving DecidableEq, Repr

/-- The arm that the name of the called function selects. -/
def recognise (arms : List Arm) (callee : Callee) : Option Arm :=
  callee.getCalledFunction.bind fun funcName => arms.find? fun a => found funcName a.pattern

/-- The debug-located calls and invokes that an arm recognises, by the arms for each. -/
def site (invokeArms callArms : List Arm) (I : Inst) : Option Site :=
  match I.op, I.dbg with
  | .invoke callee args _ _, some loc => (recognise invokeArms callee).map (⟨·, loc, args⟩)
  | .call callee args, some loc => (recognise callArms callee).map (⟨·, loc, args⟩)
  | _, _ => none

/-- The argument that a route takes. -/
def Route.operand : Route → ℕ
  | .argument i => i
  | _ => 0

/-- The call has the argument that its arm takes. -/
def Site.hasOperand (s : Site) : Bool := s.arm.route.operand < s.args.length

/-- The two versions of the pass. -/
inductive Source where
  | helloWorldCpp
  | functionCpp
  deriving DecidableEq, Repr

namespace Source

/-- The turn of the inner loop. -/
def visit : Source → HelloWorld → String → ℕ → Inst → Option Inst → Except Fault (Visit Inst ℕ)
  | .helloWorldCpp => HelloWorldCpp.visit
  | .functionCpp => FunctionCpp.visit

/-- The lock operations the version recognises. -/
def site : Source → Inst → Option Site
  | .helloWorldCpp => AtomicityViolation.site HelloWorldCpp.invokeArms HelloWorldCpp.callArms
  | .functionCpp => AtomicityViolation.site FunctionCpp.invokeArms []

/-- The calls at which the walk leaves the block: in `HelloWorld.cpp` those of a method of an atomic
type that no lock arm recognises. -/
def leaves : Source → Inst → Bool
  | .helloWorldCpp, I =>
    match I.op, I.dbg with
    | .call callee _, some _ =>
      match callee.getCalledFunction with
      | some funcName =>
        (recognise HelloWorldCpp.callArms callee).isNone && HelloWorldCpp.isAtomic funcName
      | none => false
    | _, _ => false
  | .functionCpp, _ => false

/-- The instructions whose called function the version asks for its name. -/
def asksName : Source → Inst → Bool
  | .helloWorldCpp, I =>
    match I.op with
    | .call _ _ | .invoke _ _ _ _ => I.dbg.isSome
    | _ => false
  | .functionCpp, I =>
    match I.op with
    | .invoke _ _ _ _ => I.dbg.isSome
    | _ => false

/-- The visit of the instruction does not fault: a called function that is asked for its name is
there, and so is the argument that the selected arm takes. -/
def Sound (src : Source) (I : Inst) : Prop :=
  (src.asksName I = true → I.indirect = false) ∧ ∀ s, src.site I = some s → s.hasOperand = true

end Source

/-! ## The shape of the insertions -/

/-- `addr` is `v` as an `i8*`, computed by `cast`. -/
inductive CastOf (v : Value) : List Inst → Value → Prop
  /-- It already is one. -/
  | same : v.ty = ptrTy → CastOf v [] v
  /-- It is a constant, and the bitcast is folded. -/
  | folded {c : Const} {ty : Ty} : v = .const c ty → CastOf v [] (.const (.bitcast c ptrTy) ptrTy)
  /-- A bitcast instruction. -/
  | inst {J : Inst} : J.op = .bitcast v → J.ty = ptrTy → CastOf v [J] (.reg J.id ptrTy)

/-- `ptr` is the address of field 0 of what `var` points to, computed by `gep`. -/
inductive FieldOf (var : Value) : List Inst → Value → Prop
  /-- The address of a constant's field is folded. -/
  | folded {c : Const} {ty : Ty} :
      var = .const c ty → FieldOf var [] (.const (.structGep c) (.ptr var.ty.elementType.field0))
  /-- A field address instruction. -/
  | inst {id : ℕ} {ty : Ty} {G : Inst} : var = .reg id ty → G.op = .structGep var →
      G.ty = .ptr var.ty.elementType.field0 →
      FieldOf var [G] (.reg G.id (.ptr var.ty.elementType.field0))

/-- `lock` is the address of the lock, which a route computes from the arguments by `insts`. -/
inductive RouteOf (args : List Value) : Route → List Inst → Value → Prop
  /-- An argument. -/
  | argument {i : ℕ} {v : Value} : args[i]? = some v → RouteOf args (.argument i) [] v
  /-- The guard, loaded through argument 0. -/
  | guardValue {var : Value} {J : Inst} : args[0]? = some var → J.op = .load var →
      J.ty = var.ty.elementType → RouteOf args .guardValue [J] (.reg J.id J.ty)
  /-- Field 0 of the guard. -/
  | guardField {var lockPtr : Value} {J K : Inst} {gep : List Inst} : args[0]? = some var →
      J.op = .load var → J.ty = var.ty.elementType → FieldOf var gep lockPtr →
      K.op = .load lockPtr → K.ty = var.ty.elementType.field0 →
      RouteOf args .guardField (J :: (gep ++ [K])) (.reg K.id K.ty)

/-- The instruction calls `f` with the arguments of a probe. -/
def Inst.Probes (J : Inst) (f : String) (loc : Line) (file : String) (op : Op) (addr : Value) :
    Prop :=
  J.op = .call (.direct f) (probeArgs loc file op.text addr)

/-- What stands around an instruction after the walk: `pre` before it and `post` behind it. -/
inductive Shape (src : Source) (file : String) (I : Inst) : List Inst → List Inst → Prop
  /-- A store is probed before it. -/
  | store {ptr addr : Value} {loc : Line} {cast : List Inst} {probe : Inst} :
      I.access = some (.store, ptr, loc) → CastOf ptr cast addr →
      probe.Probes "_probe_" loc file .store addr → Shape src file I (cast ++ [probe]) []
  /-- A load is probed behind it. -/
  | load {ptr addr : Value} {loc : Line} {cast : List Inst} {probe : Inst} :
      I.access = some (.load, ptr, loc) → CastOf ptr cast addr →
      probe.Probes "_probe_" loc file .load addr → Shape src file I [] (cast ++ [probe])
  /-- A lock operation is probed before it. -/
  | lock {s : Site} {lock addr : Value} {route cast : List Inst} {probe : Inst} :
      src.site I = some s → RouteOf s.args s.arm.route route lock → CastOf lock cast addr →
      probe.Probes "_probe_lock_" s.loc file s.arm.op addr →
      Shape src file I (route ++ (cast ++ [probe])) []
  /-- Nothing stands around any other instruction. -/
  | other : I.access = none → src.site I = none → Shape src file I [] []

/-- What stands around an instruction is new: its identities are not below `n`. -/
def Laid (src : Source) (file : String) (n : ℕ) (I : Inst) (pre post : List Inst) : Prop :=
  Shape src file I pre post ∧ ∀ J ∈ pre ++ post, n ≤ J.id

/-! ## The builder -/

/-- A bitcast to `ptrTy` is a cast in the sense of `CastOf`, of new instructions. -/
theorem IRBuilder.createBitCast_spec (b : IRBuilder) (v : Value) :
    ∃ cast, CastOf v cast (b.createBitCast v ptrTy).1 ∧
      (b.createBitCast v ptrTy).2.out = b.out ++ cast ∧ (∀ J ∈ cast, b.next ≤ J.id) ∧
      b.next ≤ (b.createBitCast v ptrTy).2.next := by
  unfold IRBuilder.createBitCast
  split_ifs with hty
  · exact ⟨[], .same hty, by simp⟩
  · cases v with
    | const c ty => exact ⟨[], .folded rfl, by simp⟩
    | reg id ty => exact ⟨[_], .inst rfl rfl, rfl, by simp, Nat.le_succ _⟩

/-- The end of an arm succeeds once the callee is set, and puts a cast and the call at the insertion
point. -/
theorem IRBuilder.probe_spec (b : IRBuilder) (f : String) (loc : Line) (file : String) (op : Op)
    (v : Value) :
    ∃ b' cast addr probe, b.probe (some f) loc file op.text v = .ok b' ∧ CastOf v cast addr ∧
      probe.Probes f loc file op addr ∧ b'.out = b.out ++ (cast ++ [probe]) ∧
      (∀ J ∈ cast ++ [probe], b.next ≤ J.id) ∧ b.next ≤ b'.next := by
  obtain ⟨cast, hcast, hout, hnew, hnext⟩ := b.createBitCast_spec v
  unfold IRBuilder.probe
  -- The call stands behind the cast, which takes the first identities.
  generalize b.createBitCast v ptrTy = r at hcast hout hnext
  obtain ⟨addr, b₁⟩ := r
  refine ⟨_, cast, addr,
    ⟨b₁.next, .void, .call (.direct f) (probeArgs loc file op.text addr), b₁.loc⟩, rfl, hcast, rfl,
    ?_, ?_, Nat.le_succ_of_le hnext⟩
  · simp only [IRBuilder.insert]
    rw [show b₁.out = b.out ++ cast from hout, List.append_assoc]
  · intro J hJ
    rcases List.mem_append.mp hJ with hJ | hJ
    · exact hnew J hJ
    · rw [List.mem_singleton.mp hJ]
      exact hnext

/-- The address of a field is the one of `FieldOf`, of new instructions. -/
theorem IRBuilder.createStructGEP_spec (b : IRBuilder) (var : Value) :
    ∃ gep, FieldOf var gep (b.createStructGEP var.ty.elementType var).1 ∧
      (b.createStructGEP var.ty.elementType var).2.out = b.out ++ gep ∧
      (∀ J ∈ gep, b.next ≤ J.id) ∧
      b.next ≤ (b.createStructGEP var.ty.elementType var).2.next := by
  cases var with
  | const c ty => exact ⟨[], .folded rfl, by simp [IRBuilder.createStructGEP]⟩
  | reg id ty => exact ⟨[_], .inst rfl rfl rfl, rfl, by simp, Nat.le_succ _⟩

/-- The type of a field address. -/
theorem FieldOf.ty_eq {var lockPtr : Value} {gep : List Inst} (h : FieldOf var gep lockPtr) :
    lockPtr.ty = .ptr var.ty.elementType.field0 := by
  cases h <;> rfl

/-- A route computes the lock's address by new instructions if the call has the argument it takes,
and else faults. -/
theorem Route.address_spec (r : Route) (b : IRBuilder) (args : List Value) :
    if r.operand < args.length then
      ∃ lock b' insts, r.address b args = .ok (lock, b') ∧ RouteOf args r insts lock ∧
        b'.out = b.out ++ insts ∧ (∀ J ∈ insts, b.next ≤ J.id) ∧ b.next ≤ b'.next
    else r.address b args = .error (.missingOperand r.operand) := by
  split_ifs with hlen
  · obtain ⟨var, hvar⟩ : ∃ v, args[r.operand]? = some v := ⟨_, List.getElem?_eq_getElem hlen⟩
    cases r with
    | argument i =>
      simp only [Route.operand] at hvar
      exact ⟨var, b, [], by simp [Route.address, getArgOperand, hvar], .argument hvar, by simp⟩
    | guardValue =>
      simp only [Route.operand] at hvar
      refine ⟨_, (b.createLoad var.ty.elementType var).2, [⟨b.next, _, .load var, b.loc⟩], ?_,
        .guardValue hvar rfl rfl, rfl, by simp, Nat.le_succ _⟩
      simp only [Route.address, getArgOperand, hvar]
      rfl
    | guardField =>
      simp only [Route.operand] at hvar
      -- The arm loads the guard, takes the address of its field 0, and loads through that.
      have haddr : ∀ r, (b.createLoad var.ty.elementType var).2.createStructGEP
          var.ty.elementType var = r → Route.guardField.address b args =
            .ok (r.2.createLoad r.1.ty.elementType r.1) := by
        rintro _ rfl
        simp only [Route.address, getArgOperand, hvar]
        rfl
      obtain ⟨gep, hgep, hout, hnew, hnext⟩ :=
        (b.createLoad var.ty.elementType var).2.createStructGEP_spec var
      generalize (b.createLoad var.ty.elementType var).2.createStructGEP var.ty.elementType var = r
        at haddr hgep hout hnext
      obtain ⟨lockPtr, b₁⟩ := r
      -- The field address has the type of field 0, which is what the last load reads.
      have hty : lockPtr.ty.elementType = var.ty.elementType.field0 := by rw [hgep.ty_eq]; rfl
      refine ⟨_, (b₁.createLoad lockPtr.ty.elementType lockPtr).2, _, haddr _ rfl,
        .guardField hvar (J := ⟨b.next, var.ty.elementType, .load var, b.loc⟩)
          (K := ⟨b₁.next, lockPtr.ty.elementType, .load lockPtr, b₁.loc⟩) rfl rfl hgep rfl hty,
        ?_, ?_, ?_⟩
      · simp only [IRBuilder.createLoad, IRBuilder.insert] at hout ⊢
        rw [hout]
        simp
      · intro J hJ
        rcases List.mem_cons.mp hJ with rfl | hJ
        · exact le_rfl
        · rcases List.mem_append.mp hJ with hJ | hJ
          · exact le_trans (Nat.le_succ _) (hnew J hJ)
          · rw [List.mem_singleton.mp hJ]
            exact le_trans (Nat.le_succ _) hnext
      · exact le_trans (Nat.le_succ _) (Nat.le_succ_of_le hnext)
  · -- Without the argument, `getArgOperand` fails before anything is inserted.
    have hnone : args[r.operand]? = none := List.getElem?_eq_none (by omega)
    cases r <;> simp only [Route.operand] at hnone <;>
      simp [Route.address, getArgOperand, Route.operand, hnone]

/-! ## The visits -/

/-- What an arm does: with the argument it takes, it puts the computation of the lock's address, the
cast and the call before the call that it stands for. Without, it faults. -/
theorem Arm.log_spec (a : Arm) (file : String) (next : ℕ) (loc : Line) (args : List Value) :
    if a.route.operand < args.length then
      ∃ v, a.log .ready file next loc args = .ok v ∧ v.leave = false ∧ v.after = [] ∧
        next ≤ v.state ∧ (∀ J ∈ v.before, next ≤ J.id) ∧
        ∃ route lock cast addr probe, v.before = route ++ (cast ++ [probe]) ∧
          RouteOf args a.route route lock ∧ CastOf lock cast addr ∧
          probe.Probes "_probe_lock_" loc file a.op addr
    else a.log .ready file next loc args = .error (.missingOperand a.route.operand) := by
  have hroute := a.route.address_spec (IRBuilder.start next (some loc)) args
  unfold Arm.log
  split_ifs at hroute ⊢
  · obtain ⟨lock, b, route, haddr, hrouteOf, hout, hnew, hnext⟩ := hroute
    obtain ⟨b', cast, addr, probe, hprobe, hcast, hcall, hout', hnew', hnext'⟩ :=
      b.probe_spec "_probe_lock_" loc file a.op lock
    -- The computation of the address and the probe stand in this order before the call.
    have hbefore : b'.out = route ++ (cast ++ [probe]) := by rw [hout', hout]; rfl
    refine ⟨⟨b'.out, [], b'.next, false⟩, ?_, rfl, rfl, le_trans hnext hnext', ?_, route, lock,
      cast, addr, probe, hbefore, hrouteOf, hcast, hcall⟩
    · simp only [haddr]
      rw [show HelloWorld.ready.p_probe_lock = some "_probe_lock_" from rfl, hprobe]
      rfl
    · intro J hJ
      rw [show Visit.before _ = b'.out from rfl, hbefore] at hJ
      rcases List.mem_append.mp hJ with hJ | hJ
      · exact hnew J hJ
      · exact le_trans hnext (hnew' J hJ)
  · simp only [hroute]

/-- What the loop passes over behind a load: bitcasts and calls of `_probe_`. -/
def Quiet (J : Inst) : Prop :=
  (∃ v, J.op = .bitcast v) ∨ ∃ args, J.op = .call (.direct "_probe_") args

/-- The instructions of a cast are bitcasts. -/
theorem CastOf.bitcast {v addr : Value} {cast : List Inst} (h : CastOf v cast addr) :
    ∀ J ∈ cast, ∃ w, J.op = .bitcast w := by
  cases h with
  | same | folded => simp
  | inst hop => simpa using ⟨v, hop⟩

/-- A cast and a call of `_probe_` are passed over. -/
theorem quiet_of_cast {v addr addr' : Value} {cast : List Inst} {probe : Inst} {loc : Line}
    {file : String} {op : Op} (hcast : CastOf v cast addr)
    (hprobe : probe.Probes "_probe_" loc file op addr') : ∀ J ∈ cast ++ [probe], Quiet J := by
  intro J hJ
  rcases List.mem_append.mp hJ with hJ | hJ
  · exact .inl (hcast.bitcast J hJ)
  · rw [List.mem_singleton.mp hJ]
    exact .inr ⟨_, hprobe⟩

namespace Source

/-- What the visit of an instruction that does not fault does. -/
structure VisitSpec (src : Source) (file : String) (next : ℕ) (I : Inst) (v : Visit Inst ℕ) :
    Prop where
  /-- Identities are only used up. -/
  next_le : next ≤ v.state
  /-- It leaves the block at the instructions of `leaves`. -/
  leave_eq : v.leave = src.leaves I
  /-- It inserts what `Shape` says. -/
  laid : Laid src file next I v.before v.after
  /-- What it puts behind the cursor is passed over. -/
  quiet : ∀ J ∈ v.after, Quiet J

/-- The visit without effect, of an instruction that is neither an access nor a site. -/
theorem visitSpec_skip {src : Source} {file : String} {next : ℕ} {I : Inst}
    (hacc : I.access = none) (hsite : src.site I = none) :
    VisitSpec src file next I ⟨[], [], next, src.leaves I⟩ where
  next_le := le_rfl
  leave_eq := rfl
  laid := ⟨.other hacc hsite, by simp⟩
  quiet := by simp

variable {src : Source} {file : String} {next : ℕ} {I : Inst}

/-- The same, where the walk stays in the block. -/
theorem visitSpec_stay (hacc : I.access = none) (hsite : src.site I = none)
    (hleaves : src.leaves I = false) : VisitSpec src file next I (.skip next) := by
  rw [Visit.skip, ← hleaves]
  exact visitSpec_skip hacc hsite

/-- The store arm. -/
theorem storeLog_spec {val ptr : Value} (hop : I.op = .store val ptr) :
    ∃ v, storeLog .ready file next I ptr = .ok v ∧ VisitSpec src file next I v := by
  have hleaves : src.leaves I = false := by cases src <;> simp [leaves, hop]
  have hsite : src.site I = none := by cases src <;> simp [site, AtomicityViolation.site, hop]
  unfold storeLog
  cases hdbg : I.dbg with
  | none =>
    refine ⟨_, rfl, ?_⟩
    have hacc : I.access = none := by simp [Inst.access, hop, hdbg]
    exact visitSpec_stay hacc hsite hleaves
  | some loc =>
    have hacc : I.access = some (.store, ptr, loc) := by simp [Inst.access, hop, hdbg]
    -- The builder starts before the store, so all it inserts is put before the cursor.
    obtain ⟨b, cast, addr, probe, hprobe, hcast, hcall, hout, hnew, hnext⟩ :=
      (IRBuilder.start next (some loc)).probe_spec "_probe_" loc file .store ptr
    replace hout : b.out = cast ++ [probe] := by rw [hout]; rfl
    refine ⟨⟨b.out, [], b.next, false⟩, ?_, hnext, hleaves.symm, ?_, by simp⟩
    · simp only
      rw [show HelloWorld.ready.p_probe = some "_probe_" from rfl, hprobe]
      rfl
    · simp only [Laid, hout, List.append_nil]
      exact ⟨.store hacc hcast hcall, hnew⟩

/-- The load arm. -/
theorem loadLog_spec {ptr : Value} (following : Option Inst) (hop : I.op = .load ptr) :
    ∃ v, loadLog .ready file next I following ptr = .ok v ∧ VisitSpec src file next I v := by
  have hleaves : src.leaves I = false := by cases src <;> simp [leaves, hop]
  have hsite : src.site I = none := by cases src <;> simp [site, AtomicityViolation.site, hop]
  unfold loadLog
  cases hdbg : I.dbg with
  | none =>
    refine ⟨_, rfl, ?_⟩
    have hacc : I.access = none := by simp [Inst.access, hop, hdbg]
    exact visitSpec_stay hacc hsite hleaves
  | some loc =>
    have hacc : I.access = some (.load, ptr, loc) := by simp [Inst.access, hop, hdbg]
    -- The builder starts behind the load, so the cursor comes to what it inserts.
    obtain ⟨b, cast, addr, probe, hprobe, hcast, hcall, hout, hnew, hnext⟩ :=
      (IRBuilder.start next (locBehind loc following)).probe_spec "_probe_" loc file .load ptr
    replace hout : b.out = cast ++ [probe] := by rw [hout]; rfl
    refine ⟨⟨[], b.out, b.next, false⟩, ?_, hnext, hleaves.symm, ?_, ?_⟩
    · simp only
      rw [show HelloWorld.ready.p_probe = some "_probe_" from rfl, hprobe]
      rfl
    · simp only [Laid, hout, List.nil_append]
      exact ⟨.load hacc hcast hcall, hnew⟩
    · simp only [hout]
      exact quiet_of_cast hcast hcall

/-- A computation succeeds with what `VisitSpec` says when the instruction is sound, and else
faults. -/
def SoundSpec (src : Source) (file : String) (next : ℕ) (I : Inst)
    (r : Except Fault (Visit Inst ℕ)) : Prop :=
  (src.Sound I → ∃ v, r = .ok v ∧ VisitSpec src file next I v) ∧ (¬ src.Sound I → ∃ e, r = .error e)

/-- The visit without effect is right at a sound instruction that is neither an access nor a
site. -/
theorem soundSpec_skip (hacc : I.access = none) (hsite : src.site I = none)
    (hname : src.asksName I = true → I.indirect = false) (hleaves : src.leaves I = false) :
    SoundSpec src file next I (.ok (.skip next)) := by
  have hsound : src.Sound I := ⟨hname, by simp [hsite]⟩
  refine ⟨fun _ => ⟨_, rfl, ?_⟩, fun h => absurd hsound h⟩
  exact visitSpec_stay hacc hsite hleaves

/-- The arm of a site. -/
theorem soundSpec_log {s : Site} (hsite : src.site I = some s)
    (hname : I.indirect = false) (hleaves : src.leaves I = false) :
    SoundSpec src file next I (s.arm.log .ready file next s.loc s.args) := by
  have hiff : src.Sound I ↔ s.arm.route.operand < s.args.length := by
    simp [Sound, hsite, hname, Site.hasOperand]
  have hlog := s.arm.log_spec file next s.loc s.args
  rw [SoundSpec, hiff]
  split_ifs at hlog with hlen
  · obtain ⟨v, hv, hleave, hafter, hnext, hnew, route, lock, cast, addr, probe, hbefore, hroute,
      hcast, hprobe⟩ := hlog
    refine ⟨fun _ => ⟨v, hv, hnext, by rw [hleave, hleaves], ⟨?_, ?_⟩, by simp [hafter]⟩,
      fun h => absurd hlen h⟩
    · rw [hbefore, hafter]
      exact .lock hsite hroute hcast hprobe
    · rw [hafter, List.append_nil]
      exact hnew
  · exact ⟨fun h => absurd h hlen, fun _ => ⟨_, hlog⟩⟩

/-- The chain of a call or an invoke: nothing happens without a debug location, a null called
function is a fault, and else the name selects an arm or none. -/
theorem lockChain_spec {arms : List Arm} {callee : Callee} {args : List Value}
    {otherwise : String → Visit Inst ℕ} (hacc : I.access = none)
    (hasks : src.asksName I = I.dbg.isSome)
    (hind : I.indirect = callee.getCalledFunction.isNone)
    (hsite : src.site I = I.dbg.bind fun loc => (recognise arms callee).map (⟨·, loc, args⟩))
    (hother : ∀ f, I.dbg.isSome → callee.getCalledFunction = some f → recognise arms callee = none →
      otherwise f = ⟨[], [], next, src.leaves I⟩)
    (hleaves : I.dbg = none ∨ (recognise arms callee).isSome → src.leaves I = false) :
    SoundSpec src file next I (lockChain arms .ready file next I callee args otherwise) := by
  unfold lockChain
  cases hdbg : I.dbg with
  | none =>
    exact soundSpec_skip hacc (by simp [hsite, hdbg]) (by simp [hasks, hdbg]) (hleaves (.inl hdbg))
  | some loc =>
    cases hf : callee.getCalledFunction with
    | none =>
      -- A null called function is asked for its name.
      have hbad : ¬ src.Sound I := fun h => by
        have := h.1 (by simp [hasks, hdbg])
        simp [hind, hf] at this
      exact ⟨fun h => absurd h hbad, fun _ => ⟨_, rfl⟩⟩
    | some f =>
      have hname : I.indirect = false := by simp [hind, hf]
      have hrec : recognise arms callee = arms.find? fun a => found f a.pattern := by
        simp [recognise, hf]
      simp only [← hrec]
      cases ha : recognise arms callee with
      | none =>
        -- No text is in the name: `otherwise` decides whether the walk stays in the block.
        have hnone : src.site I = none := by simp [hsite, hdbg, ha]
        refine ⟨fun _ => ⟨_, rfl, ?_⟩, fun h => absurd ⟨fun _ => hname, by simp [hnone]⟩ h⟩
        rw [hother f (by simp [hdbg]) hf ha]
        exact visitSpec_skip hacc hnone
      | some a =>
        have hs : src.site I = some ⟨a, loc, args⟩ := by simp [hsite, hdbg, ha]
        exact soundSpec_log hs hname (hleaves (.inr (by simp [ha])))

/-- The visit of any instruction, by either version. -/
theorem visit_spec (src : Source) (file : String) (next : ℕ) (I : Inst)
    (following : Option Inst) :
    SoundSpec src file next I (src.visit .ready file next I following) := by
  obtain ⟨id, ty, op, dbg⟩ := I
  cases op with
  | store val ptr =>
    have hsound : src.Sound ⟨id, ty, .store val ptr, dbg⟩ := by
      cases src <;> simp [Sound, asksName, site, AtomicityViolation.site]
    refine ⟨fun _ => ?_, fun h => absurd hsound h⟩
    cases src <;> exact storeLog_spec rfl
  | load ptr =>
    have hsound : src.Sound ⟨id, ty, .load ptr, dbg⟩ := by
      cases src <;> simp [Sound, asksName, site, AtomicityViolation.site]
    refine ⟨fun _ => ?_, fun h => absurd hsound h⟩
    cases src <;> exact loadLog_spec following rfl
  | invoke callee args normal unwind =>
    cases src with
    | helloWorldCpp =>
      exact lockChain_spec rfl rfl rfl (by cases dbg <;> rfl) (fun _ _ _ _ => rfl) fun _ => rfl
    | functionCpp =>
      exact lockChain_spec rfl rfl rfl (by cases dbg <;> rfl) (fun _ _ _ _ => rfl) fun _ => rfl
  | call callee args =>
    cases src with
    | helloWorldCpp =>
      refine lockChain_spec rfl rfl rfl (by cases dbg <;> rfl) ?_ ?_
      · -- No lock arm recognises the name, and the walk leaves if it is that of an atomic method.
        intro f hdbg hf hrec
        obtain ⟨loc, rfl⟩ := Option.isSome_iff_exists.mp hdbg
        simp [leaves, hf, hrec]
      · -- It stays when there is no debug location, and when a lock arm recognises the name.
        rintro (h | h)
        · simp only at h
          simp [leaves, h]
        · cases dbg with
          | none => rfl
          | some loc =>
            have hnot : (recognise HelloWorldCpp.callArms callee).isNone = false := by
              simpa [Option.isSome_iff_ne_none] using h
            simp only [leaves, hnot, Bool.false_and]
            cases callee.getCalledFunction <;> rfl
    | functionCpp =>
      refine soundSpec_skip rfl ?_ (by simp [asksName]) rfl
      cases dbg with
      | none => rfl
      | some loc => cases callee <;> rfl
  | bitcast val => cases src <;> exact soundSpec_skip rfl rfl (by simp [asksName]) rfl
  | structGep ptr => cases src <;> exact soundSpec_skip rfl rfl (by simp [asksName]) rfl
  | phi incoming => cases src <;> exact soundSpec_skip rfl rfl (by simp [asksName]) rfl
  | other name operands => cases src <;> exact soundSpec_skip rfl rfl (by simp [asksName]) rfl

/-- The visit of an instruction succeeds exactly when the instruction is sound. -/
theorem visit_ok_iff (src : Source) (file : String) (next : ℕ) (I : Inst)
    (following : Option Inst) :
    (∃ v, src.visit .ready file next I following = .ok v) ↔ src.Sound I := by
  have hspec := src.visit_spec file next I following
  constructor
  · rintro ⟨v, hv⟩
    by_contra hbad
    obtain ⟨e, he⟩ := hspec.2 hbad
    rw [hv] at he
    cases he
  · intro hsound
    obtain ⟨v, hv, -⟩ := hspec.1 hsound
    exact ⟨v, hv⟩

/-- What a visit that succeeds does. -/
theorem visitSpec_of_visit {following : Option Inst} {v : Visit Inst ℕ}
    (h : src.visit .ready file next I following = .ok v) : VisitSpec src file next I v := by
  obtain ⟨v', hv', hspec⟩ :=
    (src.visit_spec file next I following).1 ((src.visit_ok_iff file next I following).mp ⟨v, h⟩)
  rw [h, Except.ok.injEq] at hv'
  exact hv' ▸ hspec

/-- The visits insert what `Laid` says, and leave the block at the instructions of `leaves`. -/
theorem visits (src : Source) (file : String) (n : ℕ) :
    Visits (src.visit .ready file) (n ≤ ·) src.leaves (Laid src file n) := by
  intro next I following v hnext hv
  obtain ⟨hnext', hleave, ⟨hshape, hnew⟩, -⟩ := visitSpec_of_visit hv
  exact ⟨le_trans hnext hnext', hleave, hshape, fun J hJ => le_trans hnext (hnew J hJ)⟩

/-- What the walk puts behind a load is passed over: the bitcast has no arm, and the name `_probe_`
selects none. -/
theorem settles (src : Source) (file : String) : Settles (src.visit .ready file) Quiet where
  after := fun _ _ _ _ hv => (visitSpec_of_visit hv).quiet
  skip := by
    rintro next ⟨id, ty, op, dbg⟩ following (⟨w, hop⟩ | ⟨args, hop⟩) <;> simp only at hop <;>
      subst hop
    · cases src <;> rfl
    · -- The name `_probe_` is found in no arm, and is not that of an atomic method.
      have hrec : HelloWorldCpp.callArms.find? (fun a => found "_probe_" a.pattern) = none := by
        decide
      have hatomic : HelloWorldCpp.isAtomic "_probe_" = false := by decide
      cases src with
      | helloWorldCpp =>
        cases dbg with
        | none => rfl
        | some loc =>
          simp only [visit, HelloWorldCpp.visit, lockChain, Callee.getCalledFunction, hrec, hatomic]
          rfl
      | functionCpp => rfl

/-! ## The walk of a body -/

/-- The walk of a body's blocks by a pass object that is initialised ends, with the blocks `out.2`
and the first identity that is unused then. -/
def Walks (src : Source) (file : String) (next : ℕ) (blocks : List Block)
    (out : ℕ × List Block) : Prop :=
  Cursor.Ends (src.visit .ready file) next blocks out

variable {blocks : List Block} {out : ℕ × List Block}

/-- The walk leaves the blocks with insertions around the instructions that it reaches. -/
theorem Walks.sweptTo (h : src.Walks file next blocks out) :
    List.Forall₂ (Cursor.SweptTo src.leaves (Laid src file next)) blocks out.2 :=
  (Cursor.sweepAll_woven (src.visits file next) le_rfl
    ((src.settles file).ends_iff_sweepAll.mp h)).2

/-- The walk ends exactly when every instruction that it reaches is sound. -/
theorem walks_iff (src : Source) (file : String) (next : ℕ) (blocks : List Block) :
    (∃ out, src.Walks file next blocks out) ↔
      ∀ B ∈ blocks, ∀ I ∈ Cursor.reached src.leaves B, src.Sound I := by
  rw [← Cursor.sweepAll_ok_iff (src.visits file next) (src.visit_ok_iff file) le_rfl blocks]
  simp only [Walks, (src.settles file).ends_iff_sweepAll]

end Source

end AtomicityViolation
