import AtomicityViolation.Ir.Verifier
import AtomicityViolation.Pass.Initial
import AtomicityViolation.Pass.Steps

/-!
# The pass keeps the rules of the verifier

The walk numbers what it inserts upwards through the module (`Source.Walks.numbered`), and what it
inserts may stand where it is put (`Around.insertable`), as may the call of `_init_`. So each
function of a module keeps the rules of `Verified` after the pass if it did before, whatever
functions the pass comes to, and in whatever order (`Source.module_verified`). What is asked of the
module is that the lock functions of `std` take what the arms of the pass expect (`Source.fits`).
-/

namespace AtomicityViolation

open Cursor (Visit)
open Weave (Woven forall_of_forall₂)
open Transition (Run)

/-! ## The numbers of what is inserted -/

/-- The builder has numbered what it inserted upwards from `n`. -/
def IRBuilder.Numbered (n : ℕ) (b : IRBuilder) : Prop :=
  b.out.map Inst.id = List.range' n (b.next - n) ∧ n ≤ b.next

namespace IRBuilder

variable {n : ℕ} {b : IRBuilder}

/-- A builder starts with its first number. -/
theorem numbered_start (n : ℕ) (loc : Option Line) : (start n loc).Numbered n := by
  simp [Numbered, start]

/-- An instruction gets the next number. -/
theorem Numbered.insert (h : b.Numbered n) (ty : Ty) (op : Opcode) :
    (b.insert ty op).2.Numbered n := by
  obtain ⟨hout, hle⟩ := h
  refine ⟨?_, Nat.le_succ_of_le hle⟩
  have hnext : n + (b.next - n) = b.next := by omega
  simp only [IRBuilder.insert, List.map_append, List.map_singleton, hout]
  rw [Nat.succ_sub hle, List.range'_1_concat, hnext]

/-- A bitcast gets the next number, if there is an instruction. -/
theorem Numbered.createBitCast (h : b.Numbered n) (v : Value) (ty : Ty) :
    (b.createBitCast v ty).2.Numbered n := by
  unfold IRBuilder.createBitCast
  split_ifs
  · exact h
  · cases v with
    | const c ty => exact h
    | reg id ty => exact h.insert _ _

/-- A field address gets the next number, if there is an instruction. -/
theorem Numbered.createStructGEP (h : b.Numbered n) (ty : Ty) (ptr : Value) :
    (b.createStructGEP ty ptr).2.Numbered n := by
  cases ptr with
  | const c ty => exact h
  | reg id ty => exact h.insert _ _

/-- The end of an arm numbers what it inserts. -/
theorem Numbered.probe (h : b.Numbered n) {callee : Option String} {loc : Line} {file op : String}
    {addr : Value} {b' : IRBuilder} (hb : b.probe callee loc file op addr = .ok b') :
    b'.Numbered n := by
  have hcast := h.createBitCast addr ptrTy
  unfold IRBuilder.probe IRBuilder.createCall at hb
  cases callee with
  | none => cases hb
  | some f =>
    simp only [Except.ok.injEq] at hb
    subst hb
    exact hcast.insert _ _

end IRBuilder

/-- A route numbers what it inserts. -/
theorem Route.address_numbered {r : Route} {b b' : IRBuilder} {n : ℕ} {args : List Value}
    {lock : Value} (h : b.Numbered n) (hr : r.address b args = .ok (lock, b')) :
    b'.Numbered n := by
  cases r with
  | argument i =>
    simp only [Route.address] at hr
    cases harg : getArgOperand args i with
    | error e => simp [harg] at hr
    | ok var =>
      simp only [harg, Except.ok.injEq, Prod.mk.injEq] at hr
      exact hr.2 ▸ h
  | guardValue =>
    simp only [Route.address] at hr
    cases harg : getArgOperand args 0 with
    | error e => simp [harg] at hr
    | ok var =>
      simp only [harg, Except.ok.injEq] at hr
      rw [show b' = (b.createLoad var.ty.elementType var).2 from (congrArg Prod.snd hr).symm]
      exact h.insert _ _
  | guardField =>
    simp only [Route.address] at hr
    cases harg : getArgOperand args 0 with
    | error e => simp [harg] at hr
    | ok var =>
      simp only [harg, Except.ok.injEq] at hr
      have hload : (b.createLoad var.ty.elementType var).2.Numbered n := h.insert _ _
      have hgep := hload.createStructGEP (b.createLoad var.ty.elementType var).1.ty var
      rw [← show _ = b' from congrArg Prod.snd hr]
      exact hgep.insert _ _

/-- The arms of loads and stores, and those of locks, number what they insert. -/
theorem numbered_of_map {n : ℕ} {r : Except Fault IRBuilder} {v : Visit Inst ℕ}
    {f : IRBuilder → Visit Inst ℕ} (hr : ∀ b, r = .ok b → b.Numbered n)
    (hf : ∀ b, (f b).before ++ (f b).after = b.out ∧ (f b).state = b.next)
    (hv : r.map f = .ok v) : v.Numbered Inst.id n := by
  cases r with
  | error e => cases hv
  | ok b =>
    simp only [Except.map, Except.ok.injEq] at hv
    obtain ⟨hout, hnext⟩ := hf b
    obtain ⟨hids, hle⟩ := hr b rfl
    subst hv
    exact ⟨by rw [hout, hnext, hids], hnext ▸ hle⟩

/-- A visit without effect inserts nothing. -/
theorem numbered_of_nil {n : ℕ} {v : Visit Inst ℕ}
    (h : v.before = [] ∧ v.after = [] ∧ v.state = n) : v.Numbered Inst.id n := by
  obtain ⟨hbefore, hafter, hstate⟩ := h
  simp [Visit.Numbered, hbefore, hafter, hstate]

variable {P : HelloWorld} {file : String} {next : ℕ} {I : Inst} {v : Visit Inst ℕ}

/-- The store arm numbers what it inserts. -/
theorem storeLog_numbered {ptr : Value} (h : storeLog P file next I ptr = .ok v) :
    v.Numbered Inst.id next := by
  unfold storeLog at h
  cases hdbg : I.dbg with
  | none =>
    simp only [hdbg, Except.ok.injEq] at h
    exact numbered_of_nil (h ▸ ⟨rfl, rfl, rfl⟩)
  | some loc =>
    simp only [hdbg] at h
    exact numbered_of_map (fun b hb => (IRBuilder.numbered_start next (some loc)).probe hb)
      (fun b => ⟨List.append_nil _, rfl⟩) h

/-- The load arm numbers what it inserts. -/
theorem loadLog_numbered {following : Option Inst} {ptr : Value}
    (h : loadLog P file next I following ptr = .ok v) : v.Numbered Inst.id next := by
  unfold loadLog at h
  cases hdbg : I.dbg with
  | none =>
    simp only [hdbg, Except.ok.injEq] at h
    exact numbered_of_nil (h ▸ ⟨rfl, rfl, rfl⟩)
  | some loc =>
    simp only [hdbg] at h
    exact numbered_of_map (fun b hb => (IRBuilder.numbered_start next _).probe hb)
      (fun b => ⟨rfl, rfl⟩) h

/-- The arms of locks number what they insert. -/
theorem Arm.log_numbered {a : Arm} {loc : Line} {args : List Value}
    (h : a.log P file next loc args = .ok v) : v.Numbered Inst.id next := by
  unfold Arm.log at h
  cases hroute : a.route.address (IRBuilder.start next (some loc)) args with
  | error e => simp [hroute] at h
  | ok r =>
    obtain ⟨lock, b⟩ := r
    simp only [hroute] at h
    have hb := Route.address_numbered (IRBuilder.numbered_start next (some loc)) hroute
    exact numbered_of_map (fun b' hb' => hb.probe hb') (fun b => ⟨List.append_nil _, rfl⟩) h

/-- The chain of a call or an invoke numbers what it inserts. -/
theorem lockChain_numbered {arms : List Arm} {callee : Callee} {args : List Value}
    {otherwise : String → Visit Inst ℕ}
    (hother : ∀ f, (otherwise f).before = [] ∧ (otherwise f).after = [] ∧
      (otherwise f).state = next)
    (h : lockChain arms P file next I callee args otherwise = .ok v) :
    v.Numbered Inst.id next := by
  unfold lockChain at h
  split at h
  · exact numbered_of_nil (Except.ok.inj h ▸ ⟨rfl, rfl, rfl⟩)
  · split at h
    · cases h
    · split at h
      · exact numbered_of_nil (Except.ok.inj h ▸ hother _)
      · exact Arm.log_numbered h

namespace Source

variable {src : Source}

/-- A visit numbers what it inserts. -/
theorem visit_numbered {following : Option Inst}
    (h : src.visit P file next I following = .ok v) : v.Numbered Inst.id next := by
  have hskip : ∀ f : String, ((fun _ => .skip next : String → Visit Inst ℕ) f).before = [] ∧
      ((fun _ => .skip next : String → Visit Inst ℕ) f).after = [] ∧
      ((fun _ => .skip next : String → Visit Inst ℕ) f).state = next := fun _ => ⟨rfl, rfl, rfl⟩
  cases src with
  | helloWorldCpp =>
    simp only [visit, HelloWorldCpp.visit] at h
    split at h
    · exact storeLog_numbered h
    · exact loadLog_numbered h
    · exact lockChain_numbered hskip h
    · exact lockChain_numbered (fun _ => ⟨rfl, rfl, rfl⟩) h
    · exact numbered_of_nil (Except.ok.inj h ▸ ⟨rfl, rfl, rfl⟩)
  | functionCpp =>
    simp only [visit, FunctionCpp.visit] at h
    split at h
    · exact storeLog_numbered h
    · exact loadLog_numbered h
    · exact lockChain_numbered hskip h
    · exact numbered_of_nil (Except.ok.inj h ▸ ⟨rfl, rfl, rfl⟩)

/-- The walk of a body numbers what it inserts upwards, one after the other. -/
theorem Walks.numbered {blocks : List Block} {out : ℕ × List Block}
    (h : src.Walks file next blocks out) (hold : ∀ B ∈ blocks, ∀ I ∈ B, I.id < next) :
    (out.2.flatten.filter fun I => decide (next ≤ I.id)).map Inst.id =
      List.range' next (out.1 - next) ∧ next ≤ out.1 :=
  Cursor.sweepAll_numbered (fun _ _ _ _ hv => visit_numbered hv) le_rfl hold
    ((src.settles file).ends_iff_sweepAll.mp h)

end Source

/-- Identities are given once when those of the old instructions are and those of the new ones. -/
theorem distinct_of_new {args : List Reg} {n : ℕ} {blocks blocks' : List Block}
    (h : (args.map Prod.fst ++ blocks.flatten.map Inst.id).Nodup)
    (hargs : ∀ r ∈ args, r.1 < n)
    (hold : blocks'.flatten.filter (Inst.old n) = blocks.flatten)
    (hnew : ((blocks'.flatten.filter fun I => decide (n ≤ I.id)).map Inst.id).Nodup) :
    (args.map Prod.fst ++ blocks'.flatten.map Inst.id).Nodup := by
  -- The instructions are the old and the new ones in another order.
  have hperm : (blocks.flatten ++ blocks'.flatten.filter fun I => decide (n ≤ I.id)).Perm
      blocks'.flatten := by
    have hneg : (fun I : Inst => decide (n ≤ I.id)) = fun I => !I.old n := by
      funext I
      simp only [Inst.old, ← decide_not, not_lt]
    rw [← hold, hneg]
    exact List.filter_append_perm _ _
  refine ((hperm.map Inst.id).append_left _).nodup ?_
  rw [List.map_append, ← List.append_assoc]
  refine List.nodup_append.mpr ⟨h, hnew, fun i hi j hj hij => ?_⟩
  have hlt : i < n := by
    rcases List.mem_append.mp hi with hi | hi
    · obtain ⟨r, hr, rfl⟩ := List.mem_map.mp hi
      exact hargs r hr
    · obtain ⟨I, hI, rfl⟩ := List.mem_map.mp hi
      rw [← hold] at hI
      simpa [Inst.old] using (List.mem_filter.mp hI).2
  obtain ⟨J, hJ, rfl⟩ := List.mem_map.mp hj
  have hge : n ≤ J.id := by simpa using (List.mem_filter.mp hJ).2
  omega

/-! ## What is inserted has what it reads -/

variable (entry : Set Reg) (prev : Option ℕ) {ds : Set Reg}

/-- An instruction that is no PHI, alone. -/
theorem supplied_singleton {J : Inst} (huses : ∀ r ∈ J.op.uses, r ∈ ds)
    (hphi : ∀ p, J.op.incoming p = []) : Supplied entry prev ds [J] :=
  ⟨huses, fun p _ r hr => by simp [hphi p] at hr, trivial⟩

/-- A cast has the value, and gives the address. -/
theorem CastOf.supplied {v addr : Value} {cast : List Inst} (h : CastOf v cast addr)
    (hv : ∀ r ∈ v.uses, r ∈ ds) :
    Supplied entry prev ds cast ∧ ∀ r ∈ addr.uses, r ∈ ds ∪ results cast := by
  cases h with
  | same => exact ⟨trivial, fun r hr => .inl (hv r hr)⟩
  | folded => exact ⟨trivial, by simp [Value.uses]⟩
  | @inst J hop hty =>
    refine ⟨supplied_singleton entry prev (by rwa [hop]) (by simp [hop, Opcode.incoming]),
      fun r hr => ?_⟩
    obtain rfl := List.mem_singleton.mp hr
    exact .inr ⟨J, List.mem_singleton_self J, by rw [Inst.result, hty]⟩

/-- The address of a field has the pointer. -/
theorem FieldOf.supplied {var lockPtr : Value} {gep : List Inst} (h : FieldOf var gep lockPtr)
    (hvar : ∀ r ∈ var.uses, r ∈ ds) :
    Supplied entry prev ds gep ∧ ∀ r ∈ lockPtr.uses, r ∈ ds ∪ results gep := by
  cases h with
  | folded => exact ⟨trivial, by simp [Value.uses]⟩
  | @inst id ty G _ hop hty =>
    refine ⟨supplied_singleton entry prev (by rwa [hop]) (by simp [hop, Opcode.incoming]),
      fun r hr => ?_⟩
    obtain rfl := List.mem_singleton.mp hr
    exact .inr ⟨G, List.mem_singleton_self G, by rw [Inst.result, hty]⟩

/-- A load has the pointer, and gives its result. -/
theorem supplied_load {ptr : Value} {J : Inst} (hop : J.op = .load ptr)
    (hptr : ∀ r ∈ ptr.uses, r ∈ ds) :
    Supplied entry prev ds [J] ∧
      ∀ r ∈ (Value.reg J.id J.ty).uses, r ∈ ds ∪ results [J] := by
  refine ⟨supplied_singleton entry prev (by rwa [hop]) (by simp [hop, Opcode.incoming]),
    fun r hr => ?_⟩
  obtain rfl := List.mem_singleton.mp hr
  exact .inr ⟨J, List.mem_singleton_self J, rfl⟩

/-- A route has the arguments, and gives the address of the lock. -/
theorem RouteOf.supplied {args : List Value} {r : Route} {insts : List Inst} {lock : Value}
    (h : RouteOf args r insts lock) (hargs : ∀ r ∈ args.flatMap Value.uses, r ∈ ds) :
    Supplied entry prev ds insts ∧ ∀ r ∈ lock.uses, r ∈ ds ∪ results insts := by
  have harg : ∀ {i : ℕ} {v : Value}, args[i]? = some v → ∀ r ∈ v.uses, r ∈ ds := fun hv r hr =>
    hargs r (List.mem_flatMap.mpr ⟨_, List.mem_of_getElem? hv, hr⟩)
  cases h with
  | argument hv => exact ⟨trivial, fun r hr => .inl (harg hv r hr)⟩
  | guardValue hv hop => exact supplied_load entry prev hop (harg hv)
  | @guardField var lockPtr J K gep hv hJ _ hgep hK _ =>
    -- The guard is loaded, then the address of its field is taken and loaded through.
    have hvar := harg hv
    have hvar' : ∀ r ∈ var.uses, r ∈ ds ∪ results [J] := fun r hr => .inl (hvar r hr)
    obtain ⟨hgepSupplied, hptr⟩ := hgep.supplied entry prev hvar'
    have hload : Supplied entry prev ds ([J] ++ (gep ++ [K])) :=
      (supplied_append_iff _ _).mpr ⟨(supplied_load entry prev hJ hvar).1,
        (supplied_append_iff _ _).mpr ⟨hgepSupplied, (supplied_load entry prev hK hptr).1⟩⟩
    refine ⟨hload, fun r hr => ?_⟩
    exact .inr ⟨K, by simp, by rw [List.mem_singleton.mp hr]; rfl⟩

/-- A probe has the address. -/
theorem supplied_probe {probe : Inst} {f : String} {loc : Line} {file : String} {op : Op}
    {addr : Value} (h : probe.Probes f loc file op addr) (haddr : ∀ r ∈ addr.uses, r ∈ ds) :
    Supplied entry prev ds [probe] := by
  refine supplied_singleton entry prev (fun r hr => haddr r ?_) (by simp [show probe.op = _ from h,
    Opcode.incoming])
  rw [show probe.op = _ from h] at hr
  simpa [Opcode.uses, Callee.uses, probeArgs, Value.uses] using hr

/-- A lock operation is a call or an invoke with its arguments. -/
theorem op_of_site {src : Source} {I : Inst} {s : Site} (h : src.site I = some s) :
    ∃ callee, I.op = .call callee s.args ∨ ∃ normal unwind,
      I.op = .invoke callee s.args normal unwind := by
  have hsite : ∃ invokeArms callArms, site invokeArms callArms I = some s := by
    cases src with
    | helloWorldCpp => exact ⟨_, _, h⟩
    | functionCpp => exact ⟨_, _, h⟩
  obtain ⟨invokeArms, callArms, hs⟩ := hsite
  unfold site at hs
  split at hs
  next callee args normal unwind loc hop _ =>
    obtain ⟨a, -, rfl⟩ := Option.map_eq_some_iff.mp hs
    exact ⟨callee, .inr ⟨normal, unwind, hop⟩⟩
  next callee args loc hop _ =>
    obtain ⟨a, -, rfl⟩ := Option.map_eq_some_iff.mp hs
    exact ⟨callee, .inl hop⟩
  next => cases hs

/-- A lock operation reads its arguments. -/
theorem uses_of_site {src : Source} {I : Inst} {s : Site} (h : src.site I = some s) :
    ∀ r ∈ s.args.flatMap Value.uses, r ∈ I.op.uses := by
  intro r hr
  obtain ⟨callee, hop | ⟨normal, unwind, hop⟩⟩ := op_of_site h
  all_goals
    rw [hop]
    exact List.mem_append_right _ hr

/-- What stands around an instruction has what it reads when the instruction has. -/
theorem Shape.supplied {src : Source} {file : String} {I : Inst} {pre post : List Inst}
    (h : Shape src file I pre post) (hI : ∀ r ∈ I.op.uses, r ∈ ds) :
    Supplied entry prev ds pre ∧ Supplied entry prev ds post := by
  have hcast : ∀ {v addr : Value} {cast : List Inst} {probe : Inst} {f : String} {loc : Line}
      {op : Op} {ds : Set Reg}, CastOf v cast addr → probe.Probes f loc file op addr →
      (∀ r ∈ v.uses, r ∈ ds) → Supplied entry prev ds (cast ++ [probe]) :=
    fun hcast hprobe hv => (supplied_append_iff _ _).mpr
      ⟨(hcast.supplied entry prev hv).1,
        supplied_probe entry prev hprobe (hcast.supplied entry prev hv).2⟩
  cases h with
  | store hacc hcastOf hprobe =>
    refine ⟨hcast hcastOf hprobe fun r hr => hI r ?_, trivial⟩
    obtain ⟨-, ⟨⟨val, hop⟩, -⟩ | ⟨-, hload⟩⟩ := Inst.of_access hacc
    · rw [hop]
      exact List.mem_append_right _ hr
    · cases hload
  | load hacc hcastOf hprobe =>
    refine ⟨trivial, hcast hcastOf hprobe fun r hr => hI r ?_⟩
    obtain ⟨-, ⟨-, hstore⟩ | ⟨hop, -⟩⟩ := Inst.of_access hacc
    · cases hstore
    · rwa [hop]
  | lock hsite hroute hcastOf hprobe =>
    have hargs := fun r hr => hI r (uses_of_site hsite r hr)
    obtain ⟨hinsts, hlock⟩ := hroute.supplied entry prev hargs
    exact ⟨(supplied_append_iff _ _).mpr ⟨hinsts, hcast hcastOf hprobe hlock⟩, trivial⟩
  | other => exact ⟨trivial, trivial⟩

/-! ## What is inserted has the right types -/

/-- The runtime is declared as `initialization` does. -/
structure Context.Declares (C : Context) : Prop where
  /-- `_init_` has no parameters. -/
  init : C.signature "_init_" = some []
  /-- The probes take a line, a file, an operation and an address. -/
  probe : ∀ f, isProbe f = true → C.signature f = some [intTy, ptrTy, ptrTy, ptrTy]

/-- The arguments have the types that a route expects. -/
def Route.fits (args : List Value) : Route → Bool
  | .argument i => (args[i]?).all fun v => v.ty.isPtr
  | .guardField => (args[0]?).all fun v =>
    match v.ty with
    | .ptr (.struct (.ptr _) _) => true
    | _ => false
  | .guardValue => (args[0]?).all fun v =>
    match v.ty with
    | .ptr (.ptr _) => true
    | _ => false

/-- If the instruction is a lock operation, its arguments have the types that its arm expects. -/
def Source.fits (src : Source) (I : Inst) : Bool :=
  (src.site I).all fun s => s.arm.route.fits s.args

variable {C : Context}

/-- A pointer type. -/
theorem Ty.isPtr_iff {ty : Ty} : ty.isPtr = true ↔ ∃ elem, ty = .ptr elem := by
  cases ty <;> simp [Ty.isPtr]

/-- A load has the right type. -/
theorem typed_load_iff {J : Inst} {ptr : Value} (hop : J.op = .load ptr) :
    J.typed C = true ↔ ptr.ty = .ptr J.ty := by
  rw [Inst.typed, hop]
  exact decide_eq_true_iff

/-- A cast of a pointer. -/
theorem CastOf.typed {v addr : Value} {cast : List Inst} (h : CastOf v cast addr)
    (hv : v.ty.isPtr = true) : (∀ J ∈ cast, J.typed C = true) ∧ addr.ty = ptrTy := by
  cases h with
  | same hty => exact ⟨by simp, hty⟩
  | folded => exact ⟨by simp, rfl⟩
  | inst hop hty =>
    refine ⟨fun J hJ => ?_, rfl⟩
    obtain rfl := List.mem_singleton.mp hJ
    rw [Inst.typed, hop, hty]
    simpa [ptrTy, Ty.isPtr] using hv

/-- The address of the first field of a struct. -/
theorem FieldOf.typed {var lockPtr : Value} {gep : List Inst} {first rest : Ty}
    (h : FieldOf var gep lockPtr) (hvar : var.ty = .ptr (.struct first rest)) :
    ∀ G ∈ gep, G.typed C = true := by
  cases h with
  | folded => simp
  | @inst id ty G _ hop hty =>
    intro G' hG'
    obtain rfl := List.mem_singleton.mp hG'
    rw [hvar] at hty
    simp only [Inst.typed, hop, hvar, hty]
    exact decide_eq_true rfl

/-- A route computes a pointer. -/
theorem RouteOf.typed {args : List Value} {r : Route} {insts : List Inst} {lock : Value}
    (h : RouteOf args r insts lock) (hfits : r.fits args = true) :
    (∀ J ∈ insts, J.typed C = true) ∧ lock.ty.isPtr = true := by
  cases h with
  | argument hv => exact ⟨by simp, by simpa [Route.fits, hv] using hfits⟩
  | @guardValue var J hv hop hty =>
    obtain ⟨elem, hvar⟩ : ∃ elem, var.ty = .ptr (.ptr elem) := by
      simp only [Route.fits, hv, Option.all_some] at hfits
      split at hfits
      next elem hvar => exact ⟨elem, hvar⟩
      next => cases hfits
    rw [hvar] at hty
    refine ⟨fun K hK => ?_, Ty.isPtr_iff.mpr ⟨elem, hty⟩⟩
    obtain rfl := List.mem_singleton.mp hK
    rw [typed_load_iff hop, hvar, hty]
    rfl
  | @guardField var lockPtr J K gep hv hJ hJty hgep hK hKty =>
    obtain ⟨elem, rest, hvar⟩ : ∃ elem rest, var.ty = .ptr (.struct (.ptr elem) rest) := by
      simp only [Route.fits, hv, Option.all_some] at hfits
      split at hfits
      next elem rest hvar => exact ⟨elem, rest, hvar⟩
      next => cases hfits
    have hptr := hgep.ty_eq
    rw [hvar] at hJty hKty hptr
    refine ⟨?_, Ty.isPtr_iff.mpr ⟨elem, hKty⟩⟩
    simp only [List.forall_mem_cons, List.forall_mem_append, List.not_mem_nil, false_implies,
      implies_true, and_true]
    refine ⟨?_, hgep.typed hvar, ?_⟩
    · rw [typed_load_iff hJ, hvar, hJty]
      rfl
    · rw [typed_load_iff hK, hptr, hKty]

/-- A probe is called with what it takes. -/
theorem Inst.Probes.typed (hC : C.Declares) {probe : Inst} {f : String} {loc : Line}
    {file : String} {op : Op} {addr : Value} (hf : isProbe f = true)
    (h : probe.Probes f loc file op addr) (haddr : addr.ty = ptrTy) : probe.typed C = true := by
  simp only [Inst.typed, show probe.op = _ from h, hC.probe f hf, Option.all_some, probeArgs,
    List.map_cons, List.map_nil, haddr]
  exact decide_eq_true rfl

/-- What stands around an instruction has the right types when the instruction has. -/
theorem Shape.typed (hC : C.Declares) {src : Source} {file : String} {I : Inst}
    {pre post : List Inst} (h : Shape src file I pre post) (hI : I.typed C = true)
    (hfits : src.fits I = true) : ∀ J ∈ pre ++ post, J.typed C = true := by
  have hcast : ∀ {v addr : Value} {cast : List Inst} {probe : Inst} {f : String} {loc : Line}
      {op : Op}, isProbe f = true → CastOf v cast addr → probe.Probes f loc file op addr →
      v.ty.isPtr = true → ∀ J ∈ cast ++ [probe], J.typed C = true := by
    intro v addr cast probe f loc op hf hcast hprobe hv
    obtain ⟨htyped, haddr⟩ := hcast.typed (C := C) hv
    exact List.forall_mem_append.mpr ⟨htyped,
      List.forall_mem_singleton.mpr (hprobe.typed hC hf haddr)⟩
  -- The operand of a load or a store is a pointer.
  have hptr : ∀ {op : Op} {ptr : Value} {loc : Line}, I.access = some (op, ptr, loc) →
      ptr.ty.isPtr = true := by
    intro op ptr loc hacc
    obtain ⟨-, ⟨⟨val, hop⟩, -⟩ | ⟨hop, -⟩⟩ := Inst.of_access hacc
    all_goals
      rw [Inst.typed, hop] at hI
      exact Ty.isPtr_iff.mpr ⟨_, decide_eq_true_iff.mp hI⟩
  cases h with
  | store hacc hcastOf hprobe =>
    rw [List.append_nil]
    exact hcast (by decide) hcastOf hprobe (hptr hacc)
  | load hacc hcastOf hprobe =>
    rw [List.nil_append]
    exact hcast (by decide) hcastOf hprobe (hptr hacc)
  | lock hsite hroute hcastOf hprobe =>
    rw [Source.fits, hsite, Option.all_some] at hfits
    obtain ⟨hinsts, hlock⟩ := hroute.typed (C := C) hfits
    rw [List.append_nil]
    exact List.forall_mem_append.mpr ⟨hinsts, hcast (by decide) hcastOf hprobe hlock⟩
  | other => simp

/-! ## The walk and the initialisation -/

/-- What a walk inserts stands neither first nor last in a block. -/
theorem Inst.Inserted.plain {J : Inst} (h : J.Inserted) : J.Plain := by
  cases h with
  | load hop | bitcast hop | structGep hop | probe _ hop =>
    simp [Inst.Plain, Inst.rank, Inst.isTerminator, hop]

/-- A load or a store stands neither first nor last in a block. -/
theorem plain_of_access {I : Inst} {op : Op} {ptr : Value} {loc : Line}
    (h : I.access = some (op, ptr, loc)) : I.Plain := by
  obtain ⟨-, ⟨⟨val, hop⟩, -⟩ | ⟨hop, -⟩⟩ := Inst.of_access h
  all_goals simp [Inst.Plain, Inst.rank, Inst.isTerminator, hop]

/-- A lock operation does not stand first in a block. -/
theorem rank_of_site {src : Source} {I : Inst} {s : Site} (h : src.site I = some s) :
    I.rank = 2 := by
  obtain ⟨callee, hop | ⟨normal, unwind, hop⟩⟩ := op_of_site h
  all_goals rw [Inst.rank, hop]

/-- What stands around an instruction after the walk may stand there. -/
theorem Around.insertable {src : Source} {file : String} {n : ℕ} {I : Inst}
    {pre post : List Inst} (hC : C.Declares) (h : Around src file n I pre post)
    (hI : I.typed C = true) (hfits : src.fits I = true) : Insertable C I pre post := by
  rcases h with ⟨hshape, hnew⟩ | ⟨rfl, rfl⟩
  · refine ⟨fun hrank => ?_, fun hlast => ?_, fun J hJ => (hshape.inserted J hJ).plain,
      fun entry prev ds => hshape.supplied entry prev, hshape.typed hC hI hfits⟩
    · cases hshape with
      | store hacc | load hacc => exact absurd (plain_of_access hacc).1 hrank
      | lock hsite => exact absurd (rank_of_site hsite) hrank
      | other => exact ⟨rfl, rfl⟩
    · cases hshape with
      | load hacc => exact absurd hlast (by simp [(plain_of_access hacc).2])
      | store | lock | other => rfl
  · exact .nil C I

variable {src : Source} {file : String} {args : List Reg} {n : ℕ} {blocks blocks' : List Block}

/-- A body keeps the rules after the walk if it did before. -/
theorem Verified.walks (hC : C.Declares) (h : Verified C args blocks)
    (hargs : ∀ r ∈ args, r.1 < n) (hbelow : ∀ B ∈ blocks, ∀ I ∈ B, I.id < n)
    (hfits : ∀ B ∈ blocks, ∀ I ∈ B, src.fits I = true) {out : ℕ × List Block}
    (hout : src.Walks file n blocks out) : Verified C args out.2 := by
  have hboth : List.Forall₂ (fun B B' =>
      (∀ I ∈ B, I.id < n ∧ src.fits I = true ∧ I.typed C = true) ∧
        Woven (Around src file n) B B') blocks out.2 :=
    (List.forall₂_and_left _ _).mpr
      ⟨fun B hB I hI => ⟨hbelow B hB I hI, hfits B hB I hI, h.typed B hB I hI⟩, hout.woven⟩
  refine h.woven (hboth.imp fun B B' hB => hB.2.mono fun I hI pre post haround =>
    haround.insertable hC (hB.1 I hI).2.2 (hB.1 I hI).2.1) (distinct_of_new h.distinct hargs ?_ ?_)
  · -- The old instructions of each block are the block.
    rw [List.filter_flatten]
    congr 1
    rw [← List.forall₂_eq_eq_eq, List.forall₂_map_left_iff]
    refine hboth.flip.imp fun B' B hB => ?_
    exact hB.2.filter_eq (fun I hI => by simpa [Inst.old] using (hB.1 I hI).1)
      fun I _ pre post haround J hJ => by simpa [Inst.old] using (haround.new J hJ).1
  · rw [(hout.numbered hbelow).1]
    exact List.nodup_range'

/-- A body keeps the rules with the call of `_init_` if it did without. -/
theorem Verified.insertInit (hC : C.Declares) (h : Verified C args blocks)
    (hargs : ∀ r ∈ args, r.1 < n) (hbelow : ∀ B ∈ blocks, ∀ I ∈ B, I.id < n)
    (hins : insertInit n blocks = .ok blocks') : Verified C args blocks' := by
  obtain ⟨phis, I, rest, Bs, rfl, rfl⟩ := insertInit_eq hins
  have hinit : ∀ J : Inst, J = ⟨n, .void, .call (.direct "_init_") [], I.dbg⟩ →
      J.Plain ∧ J.op.uses = [] ∧ J.typed C = true := by
    rintro J rfl
    refine ⟨⟨rfl, rfl⟩, rfl, ?_⟩
    simp only [Inst.typed, hC.init, Option.all_some]
    exact decide_eq_true rfl
  obtain ⟨hplain, huses, htyped⟩ := hinit _ rfl
  -- The call stands before an instruction of the entry block, where neither a PHI nor a landing
  -- pad is.
  have hcall : Insertable C I [⟨n, .void, .call (.direct "_init_") [], I.dbg⟩] [] := by
    refine ⟨fun hrank => absurd (h.entry _ rfl I (by simp)) hrank, fun _ => rfl, ?_,
      fun entry prev ds _ => ⟨supplied_singleton entry prev (by simp [huses]) fun _ => rfl,
        trivial⟩, ?_⟩
    · simpa using hplain
    · simpa using htyped
  have hrefl : ∀ B : Block, Woven (Insertable C) B B := fun B => .refl fun J _ => .nil C J
  have hentry : Woven (Insertable C) (phis ++ I :: rest)
      (phis ++ ⟨n, .void, .call (.direct "_init_") [], I.dbg⟩ :: I :: rest) :=
    (hrefl phis).append (.cons hcall (hrefl rest))
  refine h.woven (.cons hentry (List.forall₂_same.mpr fun B _ => hrefl B)) ?_
  have hnew : n ∉ args.map Prod.fst ++ ((phis ++ I :: rest) :: Bs).flatten.map Inst.id := by
    intro hmem
    rcases List.mem_append.mp hmem with hmem | hmem
    · obtain ⟨r, hr, hrn⟩ := List.mem_map.mp hmem
      have hlt := hargs r hr
      omega
    · obtain ⟨J, hJ, hJn⟩ := List.mem_map.mp hmem
      obtain ⟨B, hB, hJB⟩ := List.mem_flatten.mp hJ
      have hlt := hbelow B hB J hJB
      omega
  have hperm : (args.map Prod.fst ++ ((phis ++ ⟨n, .void, .call (.direct "_init_") [], I.dbg⟩ ::
      I :: rest) :: Bs).flatten.map Inst.id).Perm
      (n :: (args.map Prod.fst ++ ((phis ++ I :: rest) :: Bs).flatten.map Inst.id)) := by
    simp only [List.flatten_cons, List.map_append, List.map_cons, List.append_assoc,
      List.cons_append]
    rw [← List.append_assoc, ← List.append_assoc]
    exact List.perm_middle
  exact hperm.symm.nodup (List.nodup_cons.mpr ⟨hnew, h.distinct⟩)

/-! ## The pass on a module -/

/-- A call of the runtime is no lock operation. -/
theorem fits_of_runtime {J : Inst} {f : String} {args : List Value}
    (hf : isProbe f = true ∨ f = "_init_") (hop : J.op = .call (.direct f) args) :
    src.fits J = true := by
  have hrec : recognise HelloWorldCpp.callArms (.direct f) = none := by
    simp only [isProbe, Bool.or_eq_true, beq_iff_eq] at hf
    rcases hf with (rfl | rfl) | rfl <;> decide
  obtain ⟨id, ty, op, dbg⟩ := J
  obtain rfl := hop
  cases src with
  | helloWorldCpp => cases dbg <;> simp [Source.fits, Source.site, site, hrec]
  | functionCpp => cases dbg <;> simp [Source.fits, Source.site, site, recognise]

/-- What a walk inserts is no lock operation. -/
theorem Inst.Inserted.fits {J : Inst} (h : J.Inserted) : src.fits J = true := by
  obtain ⟨id, ty, op, dbg⟩ := J
  cases h with
  | load hop | bitcast hop | structGep hop =>
    obtain rfl := hop
    cases src <;> simp [Source.fits, Source.site, site]
  | probe hf hop => exact fits_of_runtime (.inl hf) hop

/-- What a function with these arguments needs for the rules to hold of what the pass makes of it:
identities below the first unused one, lock operations that take what the arms expect, and the rules
themselves. -/
structure Function.Accepted (src : Source) (C : Context) (next : ℕ) (args : List Reg)
    (F : Function) : Prop where
  below : ∀ B ∈ F.blocks, ∀ I ∈ B, I.id < next
  args_below : ∀ r ∈ args, r.1 < next
  fits : ∀ B ∈ F.blocks, ∀ I ∈ B, src.fits I = true
  verified : Verified C args F.blocks

/-- The functions of a module are accepted. `params` are their arguments, by their positions. -/
def Module.Accepted (src : Source) (C : Context) (params : ℕ → List Reg) (M : Module) : Prop :=
  ∀ (i : ℕ) (F : Function), M.functions[i]? = some F → F.Accepted src C M.next (params i)

variable {M : Module} {F : Function} {params : ℕ → List Reg} {next : ℕ}

/-- Identities may be used up. -/
theorem Function.Accepted.mono (h : F.Accepted src C n args) (hle : n ≤ next) :
    F.Accepted src C next args where
  below B hB I hI := Nat.lt_of_lt_of_le (h.below B hB I hI) hle
  args_below r hr := Nat.lt_of_lt_of_le (h.args_below r hr) hle
  fits := h.fits
  verified := h.verified

/-- A function after the walk. -/
theorem Function.Accepted.walks (hC : C.Declares) (h : F.Accepted src C n args)
    {out : ℕ × List Block} (hout : src.Walks file n F.blocks out) :
    ({ F with blocks := out.2 } : Function).Accepted src C out.1 args := by
  obtain ⟨hids, hle⟩ := hout.numbered h.below
  refine ⟨fun B hB I hI => ?_, (h.mono hle).args_below, ?_,
    h.verified.walks hC h.args_below h.below h.fits hout⟩
  · -- An instruction is old, or it has one of the numbers that the walk gave.
    by_cases hI' : I.id < n
    · omega
    · have hmem : I.id ∈ List.range' n (out.1 - n) := by
        rw [← hids]
        refine List.mem_map_of_mem (List.mem_filter.mpr ⟨List.mem_flatten.mpr ⟨B, hB, hI⟩, ?_⟩)
        simpa using Nat.le_of_not_lt hI'
      have hlt := (List.mem_range'_1.mp hmem).2
      omega
  · exact forall_of_forall₂ hout.woven (fun _ _ hB hfits => hB.forall_mem hfits
      fun _ _ _ _ haround J hJ => (haround.new J hJ).2.fits) h.fits

/-- A function with the call of `_init_`. -/
theorem Function.Accepted.insertInit (hC : C.Declares) (h : F.Accepted src C n args)
    (hins : AtomicityViolation.insertInit n F.blocks = .ok blocks') :
    ({ F with blocks := blocks' } : Function).Accepted src C (n + 1) args := by
  have hverified := h.verified.insertInit hC h.args_below h.below hins
  refine ⟨fun B hB I hI => ?_, (h.mono n.le_succ).args_below, fun B hB I hI => ?_, hverified⟩
  · obtain ⟨phis, J, rest, Bs, hblocks, rfl⟩ := insertInit_eq hins
    rcases List.mem_cons.mp hB with rfl | hB
    · have hold : ∀ K ∈ phis ++ J :: rest, K.id < n :=
        h.below _ (by rw [hblocks]; exact List.mem_cons_self)
      rcases List.mem_append.mp hI with hI | hI
      · exact Nat.lt_succ_of_lt (hold I (List.mem_append_left _ hI))
      · rcases List.mem_cons.mp hI with rfl | hI
        · exact n.lt_succ_self
        · exact Nat.lt_succ_of_lt (hold I (List.mem_append_right _ hI))
    · exact Nat.lt_succ_of_lt (h.below B (by rw [hblocks]; exact List.mem_cons_of_mem _ hB) I hI)
  · rcases mem_insertInit hins hB hI with hop | ⟨B', hB', hI'⟩
    · exact fits_of_runtime (.inr rfl) hop
    · exact h.fits B' hB' I hI'

/-- The initialisation leaves a module that is accepted. -/
theorem Module.Accepted.initialized (hC : C.Declares) (h : M.Accepted src C params)
    {Fs : List Function} (hmain : initMain M.next M.functions = .ok Fs) :
    ({ M with functions := Fs, next := M.next + 1 } : Module).Accepted src C params := by
  intro i F' hF'
  have hlen := congrArg List.length (initMain_headers hmain)
  rw [List.length_map, List.length_map] at hlen
  obtain ⟨F, hF⟩ : ∃ F, M.functions[i]? = some F :=
    ⟨_, List.getElem?_eq_getElem (hlen ▸ (List.getElem?_eq_some_iff.mp hF').1)⟩
  obtain ⟨blocks, hget, hblocks⟩ := initMain_getElem hmain hF
  obtain rfl := Option.some.inj (hget.symm.trans hF')
  rcases hblocks with rfl | ⟨-, hins⟩
  · exact (h i F hF).mono M.next.le_succ
  · exact (h i F hF).insertInit hC hins

/-- A run of the pass on a function leaves a module that is accepted. -/
theorem Module.Accepted.step (hC : C.Declares) {s s' : HelloWorld × Module} {i : ℕ}
    (hP : s.1 = {} ∨ s.1 = .ready) (h : s.2.Accepted src C params)
    (hstep : src.Runs s.1 s.2 i s') :
    (s'.1 = {} ∨ s'.1 = .ready) ∧ s'.2.Accepted src C params := by
  rcases Source.runs_cases hP hstep with ⟨rfl, -⟩ | ⟨N, F, out, hbegin, hF, hout, rfl⟩
  · exact ⟨hP, h⟩
  · have hN : N.Accepted src C params := by
      obtain ⟨-, ⟨-, hr⟩ | ⟨-, Fs, hmain, hr⟩⟩ := HelloWorld.begin_ok hP hbegin
      · obtain rfl : N = s.2 := hr
        exact h
      · obtain rfl : N = _ := hr
        exact h.initialized hC hmain
    refine ⟨.inr rfl, fun j G hG => ?_⟩
    by_cases hij : i = j
    · subst hij
      rw [List.getElem?_set_self (List.getElem?_eq_some_iff.mp hF).1] at hG
      obtain rfl := Option.some.inj hG
      exact (hN i F hF).walks hC hout
    · rw [List.getElem?_set_ne hij] at hG
      exact (hN j G hG).mono (hout.numbered (hN i F hF).below).2

/-- The pass keeps the rules of the verifier. When the functions of a module keep them, and the lock
functions of `std` take what the arms of the pass expect, then the functions keep them after the
pass as well, whatever functions the pass comes to, and in whatever order. -/
theorem Source.module_verified (src : Source) {C : Context} (hC : C.Declares)
    {params : ℕ → List Reg} {M : Module} (hM : M.Accepted src C params) {is : List ℕ}
    {s : HelloWorld × Module} (hrun : src.PassRun ({}, M) is s) :
    ∀ i F, s.2.functions[i]? = some F → Verified C (params i) F.blocks := by
  have hinv := Run.invariant (I := fun s => (s.1 = {} ∨ s.1 = .ready) ∧ s.2.Accepted src C params)
    (fun s i s' hs hstep => hs.2.step hC hs.1 hstep) hrun ⟨.inl rfl, hM⟩
  exact fun i F hF => (hinv.2 i F hF).verified

/-- A module that declares the runtime, and of which no other signature is looked at. -/
def runtimeContext : Context where
  targets _ _ := []
  signature f :=
    if f = "_init_" then some []
    else if isProbe f then some [intTy, ptrTy, ptrTy, ptrTy] else none

/-- The runtime is declared. -/
theorem runtimeContext_declares : runtimeContext.Declares where
  init := rfl
  probe f hf := by
    have hne : f ≠ "_init_" := by
      rintro rfl
      exact absurd hf (by decide)
    simp [runtimeContext, hne, hf]

/-- The arguments of `double`, which is the first function of `startModule`. -/
def startParams : ℕ → List Reg
  | 0 => [(0, .ptr (.int 64)), (1, .ptr (.struct (.ptr (.int 64)) .void)), (2, .ptr (.int 64))]
  | _ => []

/-- A function whose blocks read arguments and what they compute themselves, and no more. -/
theorem verified_of_local {C : Context} {args : List Reg} {blocks : List Block}
    (hdistinct : (args.map Prod.fst ++ blocks.flatten.map Inst.id).Nodup)
    (hentry : ∀ B, blocks[0]? = some B → ∀ I ∈ B, I.rank = 2)
    (hblocks : ∀ B ∈ blocks, B.Pairwise Inst.MayPrecede ∧ Ended B ∧
      (∀ prev, Supplied ∅ prev {r | r ∈ args} B) ∧ ∀ I ∈ B, I.typed C = true) :
    Verified C args blocks where
  distinct := hdistinct
  entry := hentry
  headed B hB := (hblocks B hB).1
  ended B hB := (hblocks B hB).2.1
  supplied prev _ ds B hds hB :=
    ((hblocks B (List.mem_of_getElem? hB)).2.2.1 prev).mono (Set.empty_subset ds) hds.args_subset
  typed B hB := (hblocks B hB).2.2.2

/-- The functions of `startModule` are accepted. -/
theorem startModule_accepted :
    startModule.Accepted .functionCpp runtimeContext startParams := by
  have hdouble : ∀ B ∈ doubleFunction.blocks, ∀ prev,
      Supplied ∅ prev {r | r ∈ startParams 0} B := by
    simp [doubleFunction, startParams, Supplied, Opcode.uses, Opcode.incoming, Callee.uses,
      Value.uses, Inst.result]
  have hmain : ∀ B ∈ mainFunction.blocks, ∀ prev,
      Supplied ∅ prev {r | r ∈ startParams 1} B := by
    simp [mainFunction, startParams, Supplied, Opcode.uses, Opcode.incoming, Callee.uses,
      Value.uses, Inst.result]
  have hshape : ∀ F ∈ startModule.functions, ∀ B ∈ F.blocks, B.Pairwise Inst.MayPrecede ∧
      Ended B ∧ ∀ I ∈ B, I.typed runtimeContext = true := by decide
  have hfits : ∀ F ∈ startModule.functions, ∀ B ∈ F.blocks, ∀ I ∈ B,
      Source.functionCpp.fits I = true := by decide +kernel
  have hbelow := startModule_wellFormed.below
  intro i F hF
  have hmem := List.mem_of_getElem? hF
  have hcases : (i = 0 ∧ F = doubleFunction) ∨ i = 1 ∧ F = mainFunction := by
    rcases i with _ | _ | i
    · exact .inl ⟨rfl, (Option.some.inj hF).symm⟩
    · exact .inr ⟨rfl, (Option.some.inj hF).symm⟩
    · simp [startModule] at hF
  refine ⟨fun B hB I hI => (hbelow F hmem B hB I hI).1, ?_, hfits F hmem, ?_⟩
  · rcases hcases with ⟨rfl, -⟩ | ⟨rfl, -⟩ <;> decide
  · have hlocal : ∀ (args : List Reg), (∀ B ∈ F.blocks, ∀ prev,
        Supplied ∅ prev {r | r ∈ args} B) → ∀ B ∈ F.blocks, B.Pairwise Inst.MayPrecede ∧
          Ended B ∧ (∀ prev, Supplied ∅ prev {r | r ∈ args} B) ∧
            ∀ I ∈ B, I.typed runtimeContext = true := by
      intro args hargs B hB
      obtain ⟨hheaded, hended, htyped⟩ := hshape F hmem B hB
      exact ⟨hheaded, hended, hargs B hB, htyped⟩
    rcases hcases with ⟨rfl, rfl⟩ | ⟨rfl, rfl⟩
    · exact verified_of_local (by decide) (by decide) (hlocal _ hdouble)
    · exact verified_of_local (by decide) (by decide) (hlocal _ hmain)

/-- `startModule`, with the pass of `function.cpp` on `main` and then on the other function. -/
theorem Source.module_verified_startModule :
    (∃ s, Source.functionCpp.PassRun ({}, startModule) [1, 0] s) ∧
      ∀ s, Source.functionCpp.PassRun ({}, startModule) [1, 0] s →
        ∀ i F, s.2.functions[i]? = some F →
          Verified runtimeContext (startParams i) F.blocks := by
  have hdirect : ∀ F ∈ startModule.functions, ∀ B ∈ F.blocks, ∀ I ∈ B,
      Source.functionCpp.asksName I = true → I.indirect = false := by decide
  have hstart : Between startModule ({}, startModule) :=
    ⟨⟨rfl, rfl, .inl rfl⟩, .inl rfl, fun F hF B hB I hI => ⟨hdirect F hF B hB I hI,
      startModule_wellFormed.operands F hF B hB I hI .functionCpp⟩⟩
  exact ⟨(hstart.run startModule_wellFormed [1, 0]).1, fun s hrun =>
    Source.module_verified .functionCpp runtimeContext_declares startModule_accepted hrun⟩

end AtomicityViolation
