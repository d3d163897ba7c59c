import Mathlib.Data.List.Forall2
import AtomicityViolation.Pass.Run

/-!
# Which accesses get a probe

A load or store with a debug location is covered when one call of `_probe_` of its own stands next
to it, and nothing else is (`ProbedOnce`). Either version covers the accesses of a body exactly
when its walk comes to all of them (`Source.covered_iff`). The walk of `function.cpp` always does
(`FunctionCpp.run_covers`). The walk of `HelloWorld.cpp` leaves a block at the `break` on line 401,
behind the call of a method of an atomic type, so it covers a body exactly when no access stands
behind such a call in its block (`HelloWorldCpp.walk_covers_iff`).
-/

namespace AtomicityViolation

open Weave (Woven)
open Cursor (reached unreached)

/-- The instruction is a direct call of `f`. -/
def Inst.calls (J : Inst) (f : String) : Bool :=
  match J.op with
  | .call (.direct g) _ => g == f
  | _ => false

/-- What stands around an instruction is new, and has one call of `_probe_`, directly before a store
or directly behind a load but for the cast of the address, if the instruction is an access with a
debug location, and none if it is not. -/
structure ProbedOnce (file : String) (n : ℕ) (I : Inst) (pre post : List Inst) : Prop where
  /-- The identities are new. -/
  new : ∀ J ∈ pre ++ post, n ≤ J.id
  /-- The probe of a store stands before it. -/
  store : ∀ ptr loc, I.access = some (.store, ptr, loc) →
    (∃ cast addr probe, pre = cast ++ [probe] ∧ CastOf ptr cast addr ∧
      probe.Probes "_probe_" loc file .store addr) ∧ ∀ J ∈ post, J.calls "_probe_" = false
  /-- The probe of a load stands behind it. -/
  load : ∀ ptr loc, I.access = some (.load, ptr, loc) →
    (∃ cast addr probe, post = cast ++ [probe] ∧ CastOf ptr cast addr ∧
      probe.Probes "_probe_" loc file .load addr) ∧ ∀ J ∈ pre, J.calls "_probe_" = false
  /-- Nothing else has a probe. -/
  none : I.access = none → ∀ J ∈ pre ++ post, J.calls "_probe_" = false

variable {file : String} {n : ℕ} {I : Inst} {pre post : List Inst}

/-! ## The insertions of the walk -/

/-- A call with the arguments of a probe is a call of its callee only. -/
theorem Inst.Probes.calls {J : Inst} {f : String} {loc : Line} {op : Op} {addr : Value}
    (h : J.Probes f loc file op addr) (g : String) : J.calls g = (f == g) := by
  rw [Inst.Probes] at h
  rw [Inst.calls, h]

/-- A cast calls nothing. -/
theorem CastOf.calls {v addr : Value} {cast : List Inst} (h : CastOf v cast addr) (g : String) :
    ∀ J ∈ cast, J.calls g = false := by
  intro J hJ
  obtain ⟨w, hop⟩ := h.bitcast J hJ
  simp [Inst.calls, hop]

/-- The computation of a field address calls nothing. -/
theorem FieldOf.calls {var lockPtr : Value} {gep : List Inst} (h : FieldOf var gep lockPtr)
    (g : String) : ∀ J ∈ gep, J.calls g = false := by
  cases h with
  | folded => simp
  | inst _ hop => simp [Inst.calls, hop]

/-- The computation of a lock's address calls nothing. -/
theorem RouteOf.calls {args : List Value} {r : Route} {insts : List Inst} {lock : Value}
    (h : RouteOf args r insts lock) (g : String) : ∀ J ∈ insts, J.calls g = false := by
  cases h with
  | argument => simp
  | guardValue _ hop => simp [Inst.calls, hop]
  | guardField _ hJ _ hgep hK _ =>
    intro I hI
    rcases List.mem_cons.mp hI with rfl | hI
    · simp [Inst.calls, hJ]
    · rcases List.mem_append.mp hI with hI | hI
      · exact hgep.calls g I hI
      · rw [List.mem_singleton.mp hI]
        simp [Inst.calls, hK]

/-- What the walk puts around an instruction probes it once. -/
theorem Laid.probedOnce {src : Source} (h : Laid src file n I pre post) :
    ProbedOnce file n I pre post := by
  obtain ⟨hshape, hnew⟩ := h
  cases hshape with
  | @store ptr addr loc cast probe hacc hcast hprobe =>
    refine ⟨hnew, fun ptr' loc' h => ?_, fun ptr' loc' h => ?_, fun h => ?_⟩
    · obtain ⟨rfl, rfl⟩ : ptr = ptr' ∧ loc = loc' := by simpa [hacc] using h
      exact ⟨⟨cast, addr, probe, rfl, hcast, hprobe⟩, by simp⟩
    · simp [hacc] at h
    · simp [hacc] at h
  | @load ptr addr loc cast probe hacc hcast hprobe =>
    refine ⟨hnew, fun ptr' loc' h => ?_, fun ptr' loc' h => ?_, fun h => ?_⟩
    · simp [hacc] at h
    · obtain ⟨rfl, rfl⟩ : ptr = ptr' ∧ loc = loc' := by simpa [hacc] using h
      exact ⟨⟨cast, addr, probe, rfl, hcast, hprobe⟩, by simp⟩
    · simp [hacc] at h
  | @lock s lock addr route cast probe hsite hroute hcast hprobe =>
    -- A site is a call or an invoke.
    have hacc : I.access = none := by
      cases src <;> unfold Source.site site at hsite <;> unfold Inst.access <;>
        cases hop : I.op <;> simp [hop] at hsite ⊢
    refine ⟨hnew, fun ptr loc h => by simp [hacc] at h, fun ptr loc h => by simp [hacc] at h,
      fun _ J hJ => ?_⟩
    rw [List.append_nil] at hJ
    -- The only call is that of `_probe_lock_`.
    rcases List.mem_append.mp hJ with hJ | hJ
    · exact hroute.calls _ J hJ
    · rcases List.mem_append.mp hJ with hJ | hJ
      · exact hcast.calls _ J hJ
      · rw [List.mem_singleton.mp hJ, hprobe.calls]
        decide
  | other hacc hsite =>
    exact ⟨by simp, fun ptr loc h => by simp [hacc] at h, fun ptr loc h => by simp [hacc] at h,
      by simp⟩

/-- An instruction around which nothing stands is right if it is no access. -/
theorem probedOnce_nil (h : I.access = none) : ProbedOnce file n I [] [] :=
  ⟨by simp, fun _ _ h' => by simp [h] at h', fun _ _ h' => by simp [h] at h', by simp⟩

/-! ## Counting probes -/

/-- A new call of `_probe_`. -/
def Inst.newProbe (n : ℕ) (J : Inst) : Bool := decide (n ≤ J.id) && J.calls "_probe_"

/-- A cast and a call of `_probe_`, all new, have one new call of `_probe_`. -/
theorem countP_cast_probe {v addr : Value} {cast : List Inst} {probe : Inst} {loc : Line} {op : Op}
    (hcast : CastOf v cast addr) (hprobe : probe.Probes "_probe_" loc file op addr)
    (hnew : ∀ J ∈ cast ++ [probe], n ≤ J.id) : (cast ++ [probe]).countP (Inst.newProbe n) = 1 := by
  have hzero : cast.countP (Inst.newProbe n) = 0 := by
    rw [List.countP_eq_zero]
    intro J hJ
    simp [Inst.newProbe, hcast.calls "_probe_" J hJ]
  have hone : Inst.newProbe n probe = true := by
    have hid := hnew probe (List.mem_append_right _ (List.mem_singleton.mpr rfl))
    simp [Inst.newProbe, hprobe.calls, hid]
  rw [List.countP_append, hzero, List.countP_singleton, if_pos hone]

/-- Instructions that do not call `_probe_` have no new call of it. -/
theorem countP_no_probe {insts : List Inst} (h : ∀ J ∈ insts, J.calls "_probe_" = false) :
    insts.countP (Inst.newProbe n) = 0 := by
  rw [List.countP_eq_zero]
  intro J hJ
  simp [Inst.newProbe, h J hJ]

/-- Old instructions have no new call of `_probe_`. -/
theorem countP_old {insts : List Inst} (h : ∀ J ∈ insts, J.id < n) :
    insts.countP (Inst.newProbe n) = 0 := by
  rw [List.countP_eq_zero]
  intro J hJ
  have hid := h J hJ
  simp only [Inst.newProbe, Bool.and_eq_true, decide_eq_true_eq, not_and]
  omega

/-- Around an old instruction that is probed once stands one new call of `_probe_` if it is an
access, and else none. -/
theorem ProbedOnce.countP (h : ProbedOnce file n I pre post) (hI : I.id < n) :
    pre.countP (Inst.newProbe n) + (if I.newProbe n then 1 else 0) +
      post.countP (Inst.newProbe n) = if I.access.isSome then 1 else 0 := by
  -- The instruction itself is not counted, being old.
  have hold : I.newProbe n = false := by
    simp only [Inst.newProbe, Bool.and_eq_false_iff, decide_eq_false_iff_not]
    omega
  have hpre : ∀ J ∈ pre, n ≤ J.id := fun J hJ => h.new J (List.mem_append_left _ hJ)
  have hpost : ∀ J ∈ post, n ≤ J.id := fun J hJ => h.new J (List.mem_append_right _ hJ)
  rw [hold]
  cases hacc : I.access with
  | none =>
    have hnone := h.none hacc
    rw [countP_no_probe fun J hJ => hnone J (List.mem_append_left _ hJ),
      countP_no_probe fun J hJ => hnone J (List.mem_append_right _ hJ)]
    rfl
  | some a =>
    obtain ⟨op, ptr, loc⟩ := a
    have hop : op = .store ∨ op = .load := by
      unfold Inst.access at hacc
      split at hacc <;> simp_all
    rcases hop with rfl | rfl
    · obtain ⟨⟨cast, addr, probe, rfl, hcast, hprobe⟩, hrest⟩ := h.store ptr loc hacc
      rw [countP_cast_probe hcast hprobe hpre, countP_no_probe hrest]
      rfl
    · obtain ⟨⟨cast, addr, probe, rfl, hcast, hprobe⟩, hrest⟩ := h.load ptr loc hacc
      rw [countP_cast_probe hcast hprobe hpost, countP_no_probe hrest]
      rfl

/-! ## Coverage of a body -/

/-- A block that the walk left early is covered exactly when no access stands behind the place where
it left. -/
theorem SweptTo.covered_iff {src : Source} {B B' : Block}
    (h : Cursor.SweptTo src.leaves (Laid src file n) B B') (hB : ∀ I ∈ B, I.id < n) :
    Woven (ProbedOnce file n) B B' ↔ ∀ I ∈ unreached src.leaves B, I.access = none := by
  obtain ⟨zs, rfl, hwoven⟩ := h
  have hsplit := Cursor.reached_append_unreached src.leaves B
  have hreached : Woven (ProbedOnce file n) (reached src.leaves B) zs :=
    hwoven.mono fun _ _ _ _ hlaid => hlaid.probedOnce
  constructor
  · -- All new probes are in `zs`, and there are as many as there are accesses that were reached.
    intro hall
    have hcount := hall.countP_eq fun I hI pre post hp => hp.countP (hB I hI)
    have hzs := hreached.countP_eq fun I hI pre post hp =>
      hp.countP (hB I (Cursor.mem_of_mem_reached hI))
    have hold : (unreached src.leaves B).countP (Inst.newProbe n) = 0 :=
      countP_old fun I hI => hB I (hsplit ▸ List.mem_append_right _ hI)
    have hsum : B.countP (fun I => I.access.isSome) =
        (reached src.leaves B).countP (fun I => I.access.isSome) +
          (unreached src.leaves B).countP (fun I => I.access.isSome) := by
      rw [← List.countP_append, hsplit]
    rw [List.countP_append, hzs, hold] at hcount
    have hzero : (unreached src.leaves B).countP (fun I => I.access.isSome) = 0 := by omega
    intro I hI
    simpa using List.countP_eq_zero.mp hzero I hI
  · -- What was not reached is as it was, which is right when no access is there.
    intro hnone
    have hrest : Woven (ProbedOnce file n) (unreached src.leaves B) (unreached src.leaves B) :=
      Woven.refl fun I hI => probedOnce_nil (hnone I hI)
    have hjoin := hreached.append hrest
    rwa [hsplit] at hjoin

/-- A version of the pass covers a body exactly when its walk does not fault and comes to every
access with a debug location. -/
theorem Source.covered_iff (src : Source) (file : String) (F : Body) :
    (∃ out, src.Walks file F.next F.blocks out ∧
      List.Forall₂ (Woven (ProbedOnce file F.next)) F.blocks out.2) ↔
    ∀ B ∈ F.blocks, (∀ I ∈ reached src.leaves B, src.Sound I) ∧
      ∀ I ∈ unreached src.leaves B, I.access = none := by
  -- Given that the walk ends, it remains to look at each block.
  have hcovered : ∀ out, src.Walks file F.next F.blocks out →
      (List.Forall₂ (Woven (ProbedOnce file F.next)) F.blocks out.2 ↔
        ∀ B ∈ F.blocks, ∀ I ∈ unreached src.leaves B, I.access = none) := by
    intro out hout
    have hswept := (List.forall₂_and_left _ _).mpr
      ⟨fun B hB I hI => (F.below B hB I hI).1, hout.sweptTo⟩
    constructor
    · intro hall
      have hboth : List.Forall₂ (fun B _ => (∀ I ∈ unreached src.leaves B, I.access = none) ∧ True)
          F.blocks out.2 :=
        hswept.mp (fun B B' h hw => ⟨(SweptTo.covered_iff h.2 h.1).mp hw, trivial⟩) hall
      exact ((List.forall₂_and_left _ _).mp hboth).1
    · intro hnone
      exact ((List.forall₂_and_left _ _).mpr ⟨hnone, hswept⟩).imp fun B B' h =>
        (SweptTo.covered_iff h.2.2 h.2.1).mpr h.1
  rw [forall₂_and, ← src.walks_iff file F.next F.blocks]
  constructor
  · rintro ⟨out, hout, hall⟩
    exact ⟨⟨out, hout⟩, (hcovered out hout).mp hall⟩
  · rintro ⟨⟨out, hout⟩, hnone⟩
    exact ⟨out, hout, (hcovered out hout).mpr hnone⟩

/-! ## `HelloWorld.cpp` -/

/-- Only debug-located calls and invokes are asked for their name. -/
theorem Source.dbg_of_asksName {src : Source} {I : Inst} (h : src.asksName I = true) :
    I.dbg.isSome = true := by
  cases src <;> unfold Source.asksName at h <;> cases hop : I.op <;>
    simp only [hop, Bool.false_eq_true] at h
  all_goals exact h

/-- For a body without debug-located indirect calls and invokes: the walk of `HelloWorld.cpp` ends
and gives every load and store with a debug location one probe of its own, and no other instruction
one, exactly when no such access stands behind a call at which the walk leaves the block, and the
lock functions that the walk comes to have the argument that is taken from them. -/
theorem HelloWorldCpp.walk_covers_iff (filePath : String) (F : Body)
    (hdirect : ∀ B ∈ F.blocks, ∀ I ∈ B, I.dbg.isSome = true → I.indirect = false) :
    (∃ out, Source.helloWorldCpp.Walks filePath F.next F.blocks out ∧
      List.Forall₂ (Woven (ProbedOnce filePath F.next)) F.blocks out.2) ↔
    ∀ B ∈ F.blocks,
      (∀ I ∈ reached Source.helloWorldCpp.leaves B, ∀ s, Source.helloWorldCpp.site I = some s →
        s.hasOperand = true) ∧
      ∀ I ∈ unreached Source.helloWorldCpp.leaves B, I.access = none := by
  rw [Source.covered_iff]
  constructor
  · intro h B hB
    exact ⟨fun I hI => ((h B hB).1 I hI).2, (h B hB).2⟩
  · intro h B hB
    refine ⟨fun I hI => ⟨?_, (h B hB).1 I hI⟩, (h B hB).2⟩
    exact fun hasks => hdirect B hB I (Cursor.mem_of_mem_reached hI) (Source.dbg_of_asksName hasks)

/-- `let x = *p; *q = x; a.load(SeqCst);` with an `AtomicUsize`, and `l.read()` and a store in the
next block. -/
def snapshotBody : Body where
  blocks :=
    [[⟨2, .int 64, .load (.reg 0 (.ptr (.int 64))), some 47⟩,
      ⟨3, .void, .store (.reg 2 (.int 64)) (.reg 1 (.ptr (.int 64))), some 48⟩,
      ⟨4, .int 64, .call (.direct "_ZN4core4sync6atomic11AtomicUsize4load17h0f1e2d3c4b5a6978E")
        [.reg 0 (.ptr (.struct (.int 64) .void)), .const (.int 4) (.int 8)], some 49⟩,
      ⟨5, .void, .other "br" [], some 49⟩],
     [⟨6, .int 64, .call (.direct "_ZN3std4sync6rwlock15RwLock$LT$T$GT$4read17h0f1e2d3c4b5a6978E")
        [.reg 1 (.ptr (.struct (.int 64) .void))], some 50⟩,
      ⟨7, .void, .store (.reg 4 (.int 64)) (.reg 1 (.ptr (.int 64))), some 51⟩,
      ⟨8, .void, .other "ret" [], some 52⟩]]
  next := 9
  below := by decide

/-- `snapshotBody` is covered: its accesses stand before the call of the method of an atomic type,
or in another block. -/
theorem HelloWorldCpp.walk_covers_snapshotBody :
    (∀ B ∈ snapshotBody.blocks, ∀ I ∈ B, I.dbg.isSome = true → I.indirect = false) ∧
    ∃ out, Source.helloWorldCpp.Walks "/src/atomic.rs" 9 snapshotBody.blocks out ∧
      List.Forall₂ (Woven (ProbedOnce "/src/atomic.rs" 9)) snapshotBody.blocks out.2 := by
  have hoperands : ∀ B ∈ snapshotBody.blocks, ∀ I ∈ reached Source.helloWorldCpp.leaves B,
      ∀ s, Source.helloWorldCpp.site I = some s → s.hasOperand = true := by decide +kernel
  have hunreached : ∀ B ∈ snapshotBody.blocks, ∀ I ∈ unreached Source.helloWorldCpp.leaves B,
      I.access = none := by decide +kernel
  exact ⟨by decide, (HelloWorldCpp.walk_covers_iff "/src/atomic.rs" snapshotBody (by decide)).mpr
    fun B hB => ⟨hoperands B hB, hunreached B hB⟩⟩

/-- `let x = p.load(SeqCst); *q = x;` of an `AtomicUsize`: a call of a method of an atomic type, and
a store. -/
def atomicBody : Body where
  blocks :=
    [[⟨2, .int 64, .call (.direct "_ZN4core4sync6atomic11AtomicUsize4load17h0f1e2d3c4b5a6978E")
        [.reg 0 (.ptr (.struct (.int 64) .void)), .const (.int 4) (.int 8)], some 47⟩,
      ⟨3, .void, .store (.reg 2 (.int 64)) (.reg 1 (.ptr (.int 64))), some 48⟩,
      ⟨4, .void, .other "ret" [], some 49⟩]]
  next := 5
  below := by decide

/-- The store of `atomicBody` gets no probe, since the `break` leaves the block before it. -/
theorem HelloWorldCpp.walk_misses_atomicBody :
    (∀ B ∈ atomicBody.blocks, ∀ I ∈ B, I.dbg.isSome = true → I.indirect = false) ∧
    (∃ out, Source.helloWorldCpp.Walks "/src/atomic.rs" 5 atomicBody.blocks out) ∧
    ¬ ∃ out, Source.helloWorldCpp.Walks "/src/atomic.rs" 5 atomicBody.blocks out ∧
      List.Forall₂ (Woven (ProbedOnce "/src/atomic.rs" 5)) atomicBody.blocks out.2 := by
  refine ⟨by decide, ?_, ?_⟩
  · -- The walk ends: what it comes to, the call, has no arm that could fault.
    have hreached : ∀ B ∈ atomicBody.blocks, ∀ I ∈ reached Source.helloWorldCpp.leaves B,
        I.indirect = false ∧ Source.helloWorldCpp.site I = none := by decide
    rw [Source.walks_iff]
    intro B hB I hI
    obtain ⟨hdirect, hsite⟩ := hreached B hB I hI
    exact ⟨fun _ => hdirect, by simp [hsite]⟩
  · -- The store stands behind the call.
    have hbehind : ¬ ∀ B ∈ atomicBody.blocks, ∀ I ∈ unreached Source.helloWorldCpp.leaves B,
        I.access = none := by decide
    intro h
    have hall := (Source.helloWorldCpp.covered_iff "/src/atomic.rs" atomicBody).mp h
    exact hbehind fun B hB => (hall B hB).2

/-! ## `function.cpp` -/

/-- The call of `_init_` is an instruction that the walk of `function.cpp` passes over. -/
theorem Source.sound_init {init : Inst} {args : List Value}
    (hop : init.op = .call (.direct "_init_") args) : Source.functionCpp.Sound init := by
  obtain ⟨id, ty, op, dbg⟩ := init
  obtain rfl : op = .call (.direct "_init_") args := hop
  refine ⟨by simp [Source.asksName], fun s hs => ?_⟩
  cases dbg <;>
    simp [Source.site, AtomicityViolation.site, recognise, Callee.getCalledFunction] at hs

/-- The instructions of a body into which the call of `_init_` was put. -/
theorem mem_insertInit {next : ℕ} {blocks blocks' : List Block}
    (h : insertInit next blocks = .ok blocks') {B : Block} (hB : B ∈ blocks') {I : Inst}
    (hI : I ∈ B) : I.op = .call (.direct "_init_") [] ∨ ∃ B ∈ blocks, I ∈ B := by
  obtain ⟨phis, J, rest, Bs, rfl, rfl⟩ := insertInit_eq h
  rcases List.mem_cons.mp hB with rfl | hB
  · simp only [List.mem_append, List.mem_cons] at hI
    rcases hI with hI | rfl | rfl | hI
    · exact .inr ⟨_, List.mem_cons_self, by simp [hI]⟩
    · exact .inl rfl
    · exact .inr ⟨_, List.mem_cons_self, by simp⟩
    · exact .inr ⟨_, List.mem_cons_self, by simp [hI]⟩
  · exact .inr ⟨B, List.mem_cons_of_mem _ hB, hI⟩

/-- `function.cpp` never leaves a block early. -/
theorem FunctionCpp.sweptTo_iff {B B' : Block} :
    Cursor.SweptTo Source.functionCpp.leaves (Laid .functionCpp file n) B B' ↔
      Woven (Laid .functionCpp file n) B B' := by
  have hstay : ∀ I ∈ B, Source.functionCpp.leaves I = false := fun _ _ => rfl
  rw [Cursor.SweptTo, Cursor.reached_eq_self hstay, Cursor.unreached_eq_nil hstay]
  simp

/-- The run of `function.cpp` on a function that it admits and that has no debug-located indirect
invoke ends. It leaves the function with its instructions, the call of `_init_` added if it is
`main`, and around each of them what `Laid` says: one call of `_probe_` at a load or store with a
debug location, one call of `_probe_lock_` before a recognised lock operation, and nothing around
any other instruction. -/
theorem FunctionCpp.run_covers {P : HelloWorld} {M : Module} {i : ℕ} {F : Function} (hP : P.Valid)
    (hM : M.WellFormed) (hF : M.functions[i]? = some F)
    (hadmits : FunctionCpp.admits M.name F = true)
    (hdirect : ∀ B ∈ F.blocks, ∀ I ∈ B, Source.functionCpp.asksName I = true →
      I.indirect = false) :
    ∃ P' M' F' start, Source.functionCpp.Runs P M i (P', M') ∧ M'.functions[i]? = some F' ∧
      F'.name = F.name ∧
      (start = F.blocks ∨ F.name = "main" ∧ insertInit M.next F.blocks = .ok start) ∧
      List.Forall₂ (Woven (Laid .functionCpp F.name M.next)) start F'.blocks := by
  obtain ⟨M₁, hbegin, hnext, hfuns⟩ := HelloWorld.begin_spec hP hM
  obtain ⟨start, hF₁, hstart⟩ := hfuns i F hF
  have hmem : F ∈ M.functions := List.mem_of_getElem? hF
  -- The call of `_init_` that `main` may have got is passed over like any other call.
  have hsound : ∀ B ∈ start, ∀ I ∈ B, Source.functionCpp.Sound I := by
    have hold : ∀ B ∈ F.blocks, ∀ I ∈ B, Source.functionCpp.Sound I := fun B hB I hI =>
      ⟨hdirect B hB I hI, hM.operands F hmem B hB I hI .functionCpp⟩
    rcases hstart with rfl | ⟨-, -, hins⟩
    · exact hold
    · intro B hB I hI
      rcases mem_insertInit hins hB hI with hop | ⟨B', hB', hI'⟩
      · exact Source.sound_init hop
      · exact hold B' hB' I hI'
  obtain ⟨out, hout⟩ := (Source.walks_iff .functionCpp F.name M₁.next start).mpr fun B hB I hI =>
    hsound B hB I (Cursor.mem_of_mem_reached hI)
  have hlen : i < M₁.functions.length := (List.getElem?_eq_some_iff.mp hF₁).1
  let F' : Function := { F with blocks := out.2 }
  -- The function is written back with the blocks of the walk.
  refine ⟨.ready, { M₁ with functions := M₁.functions.set i F', next := out.1 }, F', start, ?_, ?_,
    rfl, hstart.imp id And.right, ?_⟩
  · obtain ⟨k, hk⟩ := hout
    refine ⟨k, fun m hm => ?_⟩
    unfold Source.run
    simp only [hF, Source.admits, hadmits, Bool.not_true, Bool.false_eq_true, if_false, hbegin, hF₁,
      Source.file, hk m hm]
    rfl
  · simp [List.getElem?_set_self hlen]
  · refine hout.sweptTo.imp fun B B' h => ?_
    -- What is new to the walk is new to the module before the run as well.
    refine (FunctionCpp.sweptTo_iff.mp h).mono fun I _ pre post hlaid => ?_
    exact ⟨hlaid.1, fun J hJ => le_trans hnext (hlaid.2 J hJ)⟩

/-- A function of a crate `demo` that takes a `Mutex`, doubles what it guards and drops the
guard. -/
def doubleFunction : Function where
  name := "_ZN4demo6double17h0f1e2d3c4b5a6978E"
  directory := "/src"
  file := "demo.rs"
  blocks :=
    [[⟨3, .void, .invoke (.direct "_ZN3std4sync5mutex14Mutex$LT$T$GT$4lock17h5a6978E")
        [.reg 1 (.ptr (.struct (.ptr (.int 64)) .void)), .reg 0 (.ptr (.int 64))] 1 2, some 7⟩],
     [⟨4, .int 64, .load (.reg 2 (.ptr (.int 64))), some 8⟩,
      ⟨5, .int 64, .other "shl" [.reg 4 (.int 64), .const (.int 1) (.int 64)], some 8⟩,
      ⟨6, .void, .store (.reg 5 (.int 64)) (.reg 2 (.ptr (.int 64))), some 8⟩,
      ⟨7, .void, .invoke
        (.direct "_ZN4core3ptr60drop_in_place$LT$std..sync..mutex..MutexGuard$LT$u64$GT$$GT$17hE")
        [.reg 1 (.ptr (.struct (.ptr (.int 64)) .void))] 3 2, some 9⟩],
     [⟨8, .void, .other "unreachable" [], none⟩],
     [⟨9, .void, .other "ret" [], some 10⟩]]

/-- The module of `doubleFunction`. -/
def doubleModule : Module := ⟨"demo.ll", [doubleFunction], 10⟩

/-- `doubleModule` is as rustc emits it. -/
theorem doubleModule_wellFormed : doubleModule.WellFormed where
  below := by decide
  main_entry := by
    intro F hF hmain
    obtain rfl : F = doubleFunction := List.mem_singleton.mp hF
    exact absurd hmain (by decide)
  operands := by
    have h : ∀ F ∈ doubleModule.functions, ∀ B ∈ F.blocks, ∀ I ∈ B,
        (∀ s, Source.helloWorldCpp.site I = some s → s.hasOperand = true) ∧
          ∀ s, Source.functionCpp.site I = some s → s.hasOperand = true := by decide +kernel
    intro F hF B hB I hI src
    cases src with
    | helloWorldCpp => exact (h F hF B hB I hI).1
    | functionCpp => exact (h F hF B hB I hI).2

/-- The run on `doubleFunction`. -/
theorem FunctionCpp.run_covers_double :
    FunctionCpp.admits "demo.ll" doubleFunction = true ∧
    ∃ P' M' F' start, Source.functionCpp.Runs {} doubleModule 0 (P', M') ∧
      M'.functions[0]? = some F' ∧ F'.name = doubleFunction.name ∧
      (start = doubleFunction.blocks ∨
        doubleFunction.name = "main" ∧ insertInit 10 doubleFunction.blocks = .ok start) ∧
      List.Forall₂ (Woven (Laid .functionCpp doubleFunction.name 10)) start F'.blocks :=
  ⟨by decide +kernel, FunctionCpp.run_covers (P := {}) (fun h => by cases h) doubleModule_wellFormed
    rfl (by decide +kernel) (by decide)⟩

end AtomicityViolation
