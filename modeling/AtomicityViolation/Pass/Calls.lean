import AtomicityViolation.Pass.Coverage

/-!
# Lock operations at calls and invokes

The lock operations of `std::sync` reach the pass as calls or as invokes, as rustc needs a landing
pad for them or not. The chain of `HelloWorld.cpp` at an invoke has an arm for each of the six
operations (`LockOperation`); that at a call lacks those of `Mutex`. So the operation at a site is
recorded exactly when the site is an invoke or its lock is no `Mutex`, and the walk has not left the
block before it (`HelloWorldCpp.recorded_iff`). Both chains ask the called function for its name,
and neither version looks whether there is one: a walk reaches its end exactly when it comes to no
indirect call that it would ask (`Source.walk_ends_iff`).
-/

namespace AtomicityViolation

open Cursor (reached unreached)
open Weave (Woven runs)

/-! ## Lock operations -/

/-- `Mutex::lock`, `RwLock::read` and `RwLock::write`, and `drop_in_place` of their guards. -/
inductive LockOperation where
  | acquire (kind : GuardKind)
  | release (kind : GuardKind)
  deriving DecidableEq, Repr

namespace LockOperation

/-- What the operation is for a record. -/
def role : LockOperation → Role
  | .acquire kind => .acquire kind
  | .release kind => .release kind

/-- The guard that the operation makes or drops. -/
def kind : LockOperation → GuardKind
  | .acquire kind => kind
  | .release kind => kind

/-- The arm of the operation at an invoke. -/
def invokeArm : LockOperation → Arm
  | .acquire .mutex => ⟨"std4sync5mutex14Mutex$LT$T$GT$4lock", .argument 1, .lock⟩
  | .release .mutex => ⟨"drop_in_place$LT$std..sync..mutex..MutexGuard", .guardField, .unlock⟩
  | .acquire .read => ⟨"std4sync6rwlock15RwLock$LT$T$GT$4read", .argument 0, .invokeReadLock⟩
  | .release .read =>
    ⟨"drop_in_place$LT$std..sync..rwlock..RwLockReadGuard", .guardValue, .invokeReadUnlock⟩
  | .acquire .write => ⟨"std4sync6rwlock15RwLock$LT$T$GT$5write", .argument 1, .invokeWriteLock⟩
  | .release .write =>
    ⟨"drop_in_place$LT$std..sync..rwlock..RwLockWriteGuard", .guardField, .invokeWriteUnlock⟩

/-- The arm of the operation at a call, which is that at an invoke but for the text it records.
There is none for a `Mutex`. -/
def callArm : LockOperation → Option Arm
  | .acquire .mutex => none
  | .release .mutex => none
  | .acquire .read => some { (acquire .read).invokeArm with op := .callReadLock }
  | .release .read => some { (release .read).invokeArm with op := .callReadUnlock }
  | .acquire .write => some { (acquire .write).invokeArm with op := .callWriteLock }
  | .release .write => some { (release .write).invokeArm with op := .callWriteUnlock }

/-- A function with this name does the operation: the text of the operation is in the name, and that
of no other operation. -/
def Names (o : LockOperation) (funcName : String) : Prop :=
  ∀ o' : LockOperation, found funcName o'.invokeArm.pattern = decide (o' = o)

end LockOperation

/-- The name and the arguments of a direct call or invoke. -/
def Inst.direct (I : Inst) : Option (String × List Value) :=
  match I.op with
  | .call callee args => callee.getCalledFunction.map (·, args)
  | .invoke callee args _ _ => callee.getCalledFunction.map (·, args)
  | _ => none

/-- The instruction is an invoke. -/
def Inst.isInvoke (I : Inst) : Bool :=
  match I.op with
  | .invoke _ _ _ _ => true
  | _ => false

/-- A debug-located direct call or invoke of a lock operation. -/
structure LockSite (I : Inst) (o : LockOperation) (loc : Line) (args : List Value) : Prop where
  /-- The line. -/
  dbg : I.dbg = some loc
  /-- The function that is called. -/
  called : ∃ funcName, I.direct = some (funcName, args) ∧ o.Names funcName

/-- The chain at an invoke has the arm of each operation. -/
theorem recognise_invokeArms {o : LockOperation} {funcName : String} (h : o.Names funcName) :
    recognise HelloWorldCpp.invokeArms (.direct funcName) = some o.invokeArm := by
  have harms : HelloWorldCpp.invokeArms =
      [LockOperation.acquire .mutex, .release .mutex, .acquire .read, .release .read,
        .acquire .write, .release .write].map LockOperation.invokeArm := rfl
  have hfound : ∀ o' : LockOperation,
      found funcName o'.invokeArm.pattern = decide (o' = o) := h
  simp only [recognise, Callee.getCalledFunction, Option.bind_some, harms, List.find?_map,
    Function.comp_def, hfound]
  rcases o with (_ | _ | _) | (_ | _ | _) <;> rfl

/-- The chain at a call has those that are not of a `Mutex`. -/
theorem recognise_callArms {o : LockOperation} {funcName : String} (h : o.Names funcName) :
    recognise HelloWorldCpp.callArms (.direct funcName) = o.callArm := by
  have hread : found funcName "std4sync6rwlock15RwLock$LT$T$GT$4read" =
    decide (LockOperation.acquire .read = o) := h (.acquire .read)
  have hwrite : found funcName "std4sync6rwlock15RwLock$LT$T$GT$5write" =
    decide (LockOperation.acquire .write = o) := h (.acquire .write)
  have hdropRead : found funcName "drop_in_place$LT$std..sync..rwlock..RwLockReadGuard" =
    decide (LockOperation.release .read = o) := h (.release .read)
  have hdropWrite : found funcName "drop_in_place$LT$std..sync..rwlock..RwLockWriteGuard" =
    decide (LockOperation.release .write = o) := h (.release .write)
  simp only [recognise, Callee.getCalledFunction, Option.bind_some, HelloWorldCpp.callArms,
    List.find?_cons, hread, hwrite, hdropRead, hdropWrite]
  rcases o with (_ | _ | _) | (_ | _ | _) <;> rfl

/-- The arm that `HelloWorld.cpp` has for an operation at the instruction. -/
def LockOperation.armAt (o : LockOperation) (I : Inst) : Option Arm :=
  if I.isInvoke then some o.invokeArm else o.callArm

/-- The site of a lock operation. -/
theorem LockSite.site_eq {I : Inst} {o : LockOperation} {loc : Line} {args : List Value}
    (h : LockSite I o loc args) :
    Source.helloWorldCpp.site I = (o.armAt I).map (⟨·, loc, args⟩) := by
  obtain ⟨hdbg, funcName, hdirect, hnames⟩ := h
  obtain ⟨id, ty, op, dbg⟩ := I
  obtain rfl : dbg = some loc := hdbg
  have hcallee : ∀ {callee : Callee} {args' : List Value},
      callee.getCalledFunction.map (·, args') = some (funcName, args) →
      callee = .direct funcName ∧ args' = args := by
    intro callee args' h
    cases callee <;> simp_all [Callee.getCalledFunction]
  cases op with
  | call callee args' =>
    obtain ⟨rfl, rfl⟩ := hcallee hdirect
    exact congrArg (Option.map _) (recognise_callArms hnames)
  | invoke callee args' normal unwind =>
    obtain ⟨rfl, rfl⟩ := hcallee hdirect
    exact congrArg (Option.map _) (recognise_invokeArms hnames)
  | _ => cases hdirect

/-- The arms for an operation take the address of the lock in the same way, and record the
operation. -/
theorem LockOperation.armAt_spec {o : LockOperation} {I : Inst} {a : Arm} (h : o.armAt I = some a) :
    a.route = o.invokeArm.route ∧ a.op.role = o.role := by
  unfold LockOperation.armAt at h
  rcases o with (_ | _ | _) | (_ | _ | _) <;> cases hinv : I.isInvoke <;>
    simp [hinv, callArm] at h <;> subst h <;> exact ⟨rfl, rfl⟩

/-! ## What stands directly before a site -/

/-- The instruction was inserted. -/
def Inst.isNew (n : ℕ) (J : Inst) : Bool := decide (n ≤ J.id)

/-- A lock operation is recorded by the insertions directly before its site: they end with the
computation of the lock's address, its cast and the call of `_probe_lock_`, and there is no other
call of it among them. -/
def Recorded (file : String) (o : LockOperation) (loc : Line) (args : List Value)
    (run : List Inst) : Prop :=
  ∃ lead route lock cast addr probe op, run = lead ++ (route ++ (cast ++ [probe])) ∧
    (∀ J ∈ lead, J.calls "_probe_lock_" = false) ∧ RouteOf args o.invokeArm.route route lock ∧
    CastOf lock cast addr ∧ op.role = o.role ∧ probe.Probes "_probe_lock_" loc file op addr

/-- What stands behind an instruction is no call of `_probe_lock_`. -/
theorem Shape.calls_post {src : Source} {file : String} {I : Inst} {pre post : List Inst}
    (h : Shape src file I pre post) : ∀ J ∈ post, J.calls "_probe_lock_" = false := by
  cases h with
  | store | lock | other => simp
  | load _ hcast hprobe =>
    intro J hJ
    rcases List.mem_append.mp hJ with hJ | hJ
    · exact hcast.calls _ J hJ
    · rw [List.mem_singleton.mp hJ, hprobe.calls]
      decide

/-- Nothing is put around an instruction at which the walk leaves. -/
theorem Shape.eq_nil_of_leaves {src : Source} {file : String} {I : Inst} {pre post : List Inst}
    (h : Shape src file I pre post) (hleaves : src.leaves I = true) : pre = [] ∧ post = [] := by
  have hcall : I.access = none ∧ src.site I = none := by
    cases src with
    | functionCpp => simp [Source.leaves] at hleaves
    | helloWorldCpp =>
      obtain ⟨id, ty, op, dbg⟩ := I
      cases op with
      | call callee args =>
        cases dbg with
        | none => simp [Source.leaves] at hleaves
        | some loc =>
          refine ⟨rfl, ?_⟩
          simp only [Source.leaves] at hleaves
          split at hleaves
          next funcName hf =>
            simp only [Bool.and_eq_true, Option.isNone_iff_eq_none] at hleaves
            exact congrArg (Option.map _) hleaves.1
          next => cases hleaves
      | _ => simp [Source.leaves] at hleaves
  cases h with
  | store hacc | load hacc => simp [hcall.1] at hacc
  | lock hsite => simp [hcall.2] at hsite
  | other => exact ⟨rfl, rfl⟩

section Runs

variable {src : Source} {file : String} {n k : ℕ} {B B' : Block} {I : Inst}

/-- The runs of a block behind the walk: those in front of the instructions that it reached, and
none in front of the others. -/
theorem SweptTo.runs_eq (h : Cursor.SweptTo src.leaves (Laid src file n) B B')
    (hB : ∀ J ∈ B, J.id < n) :
    ∃ rs, runs (Inst.isNew n) [] B' = rs ++ (unreached src.leaves B).map (fun _ => []) ∧
      List.Forall₂ (fun J run => ∃ lead pre post, run = lead ++ pre ∧ Shape src file J pre post ∧
        ∀ K ∈ lead, K.calls "_probe_lock_" = false) (reached src.leaves B) rs := by
  obtain ⟨zs, rfl, hwoven⟩ := h
  have hold : ∀ J ∈ B, Inst.isNew n J = false := fun J hJ => by
    have hid := hB J hJ
    simp only [Inst.isNew, decide_eq_false_iff_not]
    omega
  have hreached : ∀ J ∈ reached src.leaves B, Inst.isNew n J = false := fun J hJ =>
    hold J (Cursor.mem_of_mem_reached hJ)
  have hunreached : ∀ J ∈ unreached src.leaves B, Inst.isNew n J = false := fun J hJ =>
    hold J (Cursor.reached_append_unreached src.leaves B ▸ List.mem_append_right _ hJ)
  have hnew : ∀ J pre post, Laid src file n J pre post → ∀ K ∈ pre ++ post, Inst.isNew n K = true :=
    fun J pre post hlaid K hK => decide_eq_true (hlaid.2 K hK)
  obtain ⟨rs, last, hruns, hall, hlast⟩ :=
    hwoven.runs_append hreached hnew [] (unreached src.leaves B)
  refine ⟨rs, ?_, hall.imp fun J run hrun => ?_⟩
  · -- Nothing is put behind the instruction at which the walk leaves.
    have hend : last = [] ∨ unreached src.leaves B = [] := by
      rcases hlast with ⟨-, rfl⟩ | ⟨J, pre, hget, hlaid⟩
      · exact .inl rfl
      · exact (Cursor.stop_of_getLast?_reached hget).imp
          (fun hleaves => (hlaid.1.eq_nil_of_leaves hleaves).2) id
    rw [hruns]
    rcases hend with rfl | hnil
    · rw [Weave.runs_of_old hunreached]
    · simp [hnil, runs]
  · obtain ⟨lead, pre, post, rfl, hlaid, hlead⟩ := hrun
    refine ⟨lead, pre, post, rfl, hlaid.1, fun K hK => ?_⟩
    rcases hlead with rfl | ⟨J', pre', hlaid'⟩
    · cases hK
    · exact hlaid'.1.calls_post K hK

/-- The run in front of an instruction that the walk reached, and of one that it did not. -/
theorem SweptTo.run_cases (h : Cursor.SweptTo src.leaves (Laid src file n) B B')
    (hB : ∀ J ∈ B, J.id < n) (hI : B[k]? = some I) :
    ((∀ J ∈ B.take k, src.leaves J = false) ∧ ∃ lead pre post,
      (runs (Inst.isNew n) [] B')[k]? = some (lead ++ pre) ∧ Shape src file I pre post ∧
      ∀ J ∈ lead, J.calls "_probe_lock_" = false) ∨
    (¬ (∀ J ∈ B.take k, src.leaves J = false) ∧ (runs (Inst.isNew n) [] B')[k]? = some []) := by
  obtain ⟨rs, hruns, hall⟩ := SweptTo.runs_eq h hB
  have hlength := hall.length_eq
  have hsplit := Cursor.reached_append_unreached src.leaves B
  rw [hruns, ← Cursor.getElem?_reached_iff hI]
  by_cases hk : k < (reached src.leaves B).length
  · have hget : (reached src.leaves B)[k]? = some I := by
      rw [← hI, ← hsplit, List.getElem?_append_left hk, hsplit]
    have hk' : k < rs.length := hlength ▸ hk
    obtain ⟨lead, pre, post, hrun, hshape, hlead⟩ := (List.forall₂_iff_get.mp hall).2 k hk hk'
    have hI' : (reached src.leaves B).get ⟨k, hk⟩ = I := by
      simpa using (List.getElem?_eq_some_iff.mp hget).2
    refine .inl ⟨hget, lead, pre, post, ?_, hI' ▸ hshape, hlead⟩
    rw [List.getElem?_append_left hk', ← hrun]
    exact List.getElem?_eq_getElem hk'
  · refine .inr ⟨fun hget => hk (List.getElem?_eq_some_iff.mp hget).1, ?_⟩
    have hrest : (unreached src.leaves B)[k - rs.length]? = some I := by
      rw [← hI, ← hsplit, List.getElem?_append_right (by omega), hsplit, hlength]
    rw [List.getElem?_append_right (by omega), List.getElem?_map, hrest]
    rfl

/-- The insertions before a site that the walk reached record the operation, if there is an arm for
it. -/
theorem Shape.records_iff {pre post lead : List Inst} {o : LockOperation} {loc : Line}
    {args : List Value} (h : Shape src file I pre post) (hacc : I.access = none)
    (hlead : ∀ J ∈ lead, J.calls "_probe_lock_" = false)
    (hsite : ∀ s, src.site I = some s → s.loc = loc ∧ s.args = args ∧
      s.arm.route = o.invokeArm.route ∧ s.arm.op.role = o.role) :
    Recorded file o loc args (lead ++ pre) ↔ (src.site I).isSome = true := by
  cases h with
  | store hacc' | load hacc' => simp [hacc] at hacc'
  | @lock s lock addr route cast probe hs hroute hcast hprobe =>
    obtain ⟨rfl, rfl, hr, hop⟩ := hsite s hs
    refine iff_of_true ⟨lead, route, lock, cast, addr, probe, s.arm.op, rfl, hlead, hr ▸ hroute,
      hcast, hop, hprobe⟩ (by simp [hs])
  | other _ hs =>
    refine iff_of_false ?_ (by simp [hs])
    -- The last instruction of the run would be a call of `_probe_lock_`.
    rintro ⟨lead', route, lock, cast, addr, probe, op, hrun, -, -, -, -, hprobe⟩
    have hmem : probe ∈ lead := by
      rw [List.append_nil] at hrun
      simp [hrun]
    have hcalls := hlead probe hmem
    rw [hprobe.calls] at hcalls
    exact absurd hcalls (by decide)

end Runs

/-! ## Which operations are recorded -/

section Operations

variable {F : Body} {b k : ℕ} {B : Block} {I : Inst} {o : LockOperation} {loc : Line}
  {args : List Value}

/-- After the walk the operation at instruction `k` of block `b` is recorded directly before it. -/
def Source.Records (src : Source) (file : String) (F : Body) (b k : ℕ) (o : LockOperation)
    (loc : Line) (args : List Value) : Prop :=
  ∃ out B' run, src.Walks file F.next F.blocks out ∧ out.2[b]? = some B' ∧
    (runs (Inst.isNew F.next) [] B')[k]? = some run ∧ Recorded file o loc args run

/-- An operation is recorded when nothing that the walk reaches is a fault, the version has an arm
for it, and the walk has not left the block before it. -/
theorem Source.records_iff (src : Source) (file : String) (hB : F.blocks[b]? = some B)
    (hI : B[k]? = some I) (hacc : I.access = none)
    (hsite : ∀ s, src.site I = some s → s.loc = loc ∧ s.args = args ∧
      s.arm.route = o.invokeArm.route ∧ s.arm.op.role = o.role) :
    src.Records file F b k o loc args ↔
      (∀ C ∈ F.blocks, ∀ J ∈ reached src.leaves C, src.Sound J) ∧ (src.site I).isSome = true ∧
        ∀ J ∈ B.take k, src.leaves J = false := by
  rw [← src.walks_iff file F.next F.blocks]
  have hold : ∀ J ∈ B, J.id < F.next := fun J hJ =>
    (F.below B (List.mem_of_getElem? hB) J hJ).1
  -- The run in front of the instruction, in any end of the walk.
  have hcases : ∀ out, src.Walks file F.next F.blocks out → ∃ B', out.2[b]? = some B' ∧
      Cursor.SweptTo src.leaves (Laid src file F.next) B B' := by
    intro out hout
    obtain ⟨hlength, hswept⟩ := List.forall₂_iff_get.mp hout.sweptTo
    obtain ⟨hb, hget⟩ := List.getElem?_eq_some_iff.mp hB
    refine ⟨out.2.get ⟨b, hlength ▸ hb⟩, List.getElem?_eq_getElem _, ?_⟩
    simpa [hget] using hswept b hb (hlength ▸ hb)
  constructor
  · rintro ⟨out, B', run, hout, hB', hrun, hrecorded⟩
    obtain ⟨B'', hB'', hswept⟩ := hcases out hout
    obtain rfl : B'' = B' := Option.some.inj (hB''.symm.trans hB')
    refine ⟨⟨out, hout⟩, ?_⟩
    rcases SweptTo.run_cases hswept hold hI with
      ⟨hstay, lead, pre, post, hrun', hshape, hlead⟩ | ⟨-, hrun'⟩
    · obtain rfl := Option.some.inj (hrun.symm.trans hrun')
      exact ⟨(hshape.records_iff hacc hlead hsite).mp hrecorded, hstay⟩
    · -- Behind the instruction at which the walk leaves nothing is inserted.
      obtain rfl := Option.some.inj (hrun.symm.trans hrun')
      obtain ⟨lead, route, lock, cast, addr, probe, op, hnil, -⟩ := hrecorded
      simp at hnil
  · rintro ⟨⟨out, hout⟩, hsome, hstay⟩
    obtain ⟨B', hB', hswept⟩ := hcases out hout
    rcases SweptTo.run_cases hswept hold hI with
      ⟨-, lead, pre, post, hrun, hshape, hlead⟩ | ⟨hleft, -⟩
    · exact ⟨out, B', lead ++ pre, hout, hB', hrun,
        (hshape.records_iff hacc hlead hsite).mpr hsome⟩
    · exact absurd hstay hleft

/-- A call or an invoke is no access. -/
theorem LockSite.access_eq_none (h : LockSite I o loc args) : I.access = none := by
  obtain ⟨-, funcName, hdirect, -⟩ := h
  unfold Inst.direct at hdirect
  unfold Inst.access
  cases hop : I.op <;> simp [hop] at hdirect ⊢

/-- What the site of a lock operation is for `HelloWorld.cpp`, if it is one. -/
theorem LockSite.site_spec (h : LockSite I o loc args) :
    ∀ s, Source.helloWorldCpp.site I = some s → s.loc = loc ∧ s.args = args ∧
      s.arm.route = o.invokeArm.route ∧ s.arm.op.role = o.role := by
  intro s hs
  rw [h.site_eq, Option.map_eq_some_iff] at hs
  obtain ⟨a, ha, rfl⟩ := hs
  exact ⟨rfl, rfl, LockOperation.armAt_spec ha⟩

/-- `HelloWorld.cpp` has an arm for every operation at an invoke, and at a call for those of an
`RwLock`. -/
theorem LockSite.isSome_site_iff (h : LockSite I o loc args) :
    (Source.helloWorldCpp.site I).isSome = true ↔ I.isInvoke = true ∨ o.kind ≠ .mutex := by
  rw [h.site_eq, Option.isSome_map, LockOperation.armAt]
  cases I.isInvoke with
  | true => simp
  | false => rcases o with (_ | _ | _) | (_ | _ | _) <;> decide

/-- For a body without debug-located indirect calls and invokes: the lock operation at a
debug-located direct call or invoke is recorded directly before it exactly when the site is an
invoke or the lock is no `Mutex`, the walk has not left the block before it, and the lock functions
that the walk comes to have the argument that is taken from them. -/
theorem HelloWorldCpp.recorded_iff (filePath : String) (F : Body)
    (hdirect : ∀ B ∈ F.blocks, ∀ I ∈ B, I.dbg.isSome = true → I.indirect = false)
    (hB : F.blocks[b]? = some B) (hI : B[k]? = some I) (hsite : LockSite I o loc args) :
    Source.helloWorldCpp.Records filePath F b k o loc args ↔
      (∀ C ∈ F.blocks, ∀ J ∈ reached Source.helloWorldCpp.leaves C, ∀ s,
        Source.helloWorldCpp.site J = some s → s.hasOperand = true) ∧
      (I.isInvoke = true ∨ o.kind ≠ .mutex) ∧
      ∀ J ∈ B.take k, Source.helloWorldCpp.leaves J = false := by
  rw [Source.records_iff _ filePath hB hI hsite.access_eq_none hsite.site_spec,
    hsite.isSome_site_iff]
  refine and_congr_left fun _ => ?_
  constructor
  · exact fun h C hC J hJ => (h C hC J hJ).2
  · refine fun h C hC J hJ => ⟨fun hasks => ?_, h C hC J hJ⟩
    exact hdirect C hC J (Cursor.mem_of_mem_reached hJ) (Source.dbg_of_asksName hasks)

end Operations

/-- The name of `Mutex::lock`. -/
def mutexLock : String := "_ZN3std4sync5mutex14Mutex$LT$T$GT$4lock17h0f1e2d3c4b5a6978E"

/-- The name of `RwLock::read`. -/
def rwlockRead : String := "_ZN3std4sync6rwlock15RwLock$LT$T$GT$4read17h0f1e2d3c4b5a6978E"

/-- The name of `AtomicUsize::load`. -/
def atomicLoad : String := "_ZN4core4sync6atomic11AtomicUsize4load17h0f1e2d3c4b5a6978E"

/-- A pointer to a lock. -/
def lockPtr : Value := .reg 0 (.ptr (.struct (.int 64) .void))

/-- A function that calls `Mutex::lock`, loads an `AtomicUsize` and calls `RwLock::read`. -/
def lockBody : Body where
  blocks :=
    [[⟨2, .void, .call (.direct mutexLock) [.reg 1 ptrTy, lockPtr], some 9⟩,
      ⟨3, .int 64, .call (.direct atomicLoad) [lockPtr, .const (.int 4) (.int 8)], some 10⟩,
      ⟨4, .int 64, .call (.direct rwlockRead) [lockPtr], some 11⟩,
      ⟨5, .void, .other "ret" [], some 12⟩]]
  next := 6
  below := by decide

/-- The same with an invoke of `Mutex::lock`. -/
def lockInvokeBody : Body where
  blocks :=
    [[⟨2, .void, .invoke (.direct mutexLock) [.reg 1 ptrTy, lockPtr] 1 2, some 9⟩],
      [⟨3, .int 64, .call (.direct rwlockRead) [lockPtr], some 11⟩,
        ⟨4, .void, .other "ret" [], some 12⟩],
      [⟨5, .void, .other "resume" [], some 9⟩]]
  next := 6
  below := by decide

/-- `Mutex::lock` is named. -/
theorem names_mutexLock : (LockOperation.acquire .mutex).Names mutexLock := by
  rintro ((_ | _ | _) | (_ | _ | _)) <;> decide

/-- `RwLock::read` is named. -/
theorem names_rwlockRead : (LockOperation.acquire .read).Names rwlockRead := by
  rintro ((_ | _ | _) | (_ | _ | _)) <;> decide

/-- The operations of `lockInvokeBody` are recorded. -/
theorem HelloWorldCpp.recorded_lockInvokeBody :
    (∀ B ∈ lockInvokeBody.blocks, ∀ I ∈ B, I.dbg.isSome = true → I.indirect = false) ∧
    Source.helloWorldCpp.Records "/src/threads.rs" lockInvokeBody 0 0 (.acquire .mutex) 9
      [.reg 1 ptrTy, lockPtr] ∧
    Source.helloWorldCpp.Records "/src/threads.rs" lockInvokeBody 1 0 (.acquire .read) 11
      [lockPtr] := by
  have hdirect : ∀ B ∈ lockInvokeBody.blocks, ∀ I ∈ B,
      I.dbg.isSome = true → I.indirect = false := by decide
  have hoperands : ∀ C ∈ lockInvokeBody.blocks, ∀ J ∈ reached Source.helloWorldCpp.leaves C, ∀ s,
      Source.helloWorldCpp.site J = some s → s.hasOperand = true := by
    have hall : ∀ C ∈ lockInvokeBody.blocks, ∀ J ∈ reached Source.helloWorldCpp.leaves C,
        (Source.helloWorldCpp.site J).all Site.hasOperand = true := by decide +kernel
    intro C hC J hJ s hs
    simpa [hs] using hall C hC J hJ
  refine ⟨hdirect, ?_, ?_⟩
  · exact (HelloWorldCpp.recorded_iff "/src/threads.rs" lockInvokeBody hdirect rfl rfl
      ⟨rfl, mutexLock, rfl, names_mutexLock⟩).mpr ⟨hoperands, .inl rfl, by decide⟩
  · exact (HelloWorldCpp.recorded_iff "/src/threads.rs" lockInvokeBody hdirect rfl rfl
      ⟨rfl, rwlockRead, rfl, names_rwlockRead⟩).mpr ⟨hoperands, .inr (by decide), by decide⟩

/-- Operations at calls that are not recorded: `Mutex::lock`, for which the chain at a call has no
arm, and `RwLock::read` behind the call of a method of an atomic type in its block. -/
theorem HelloWorldCpp.unrecorded_lockBody :
    (∀ B ∈ lockBody.blocks, ∀ I ∈ B, I.dbg.isSome = true → I.indirect = false) ∧
    (∃ out, Source.helloWorldCpp.Walks "/src/threads.rs" lockBody.next lockBody.blocks out) ∧
    (LockSite ⟨2, .void, .call (.direct mutexLock) [.reg 1 ptrTy, lockPtr], some 9⟩
        (.acquire .mutex) 9 [.reg 1 ptrTy, lockPtr] ∧
      ¬ Source.helloWorldCpp.Records "/src/threads.rs" lockBody 0 0 (.acquire .mutex) 9
        [.reg 1 ptrTy, lockPtr]) ∧
    (LockSite ⟨4, .int 64, .call (.direct rwlockRead) [lockPtr], some 11⟩ (.acquire .read) 11
        [lockPtr] ∧
      ¬ Source.helloWorldCpp.Records "/src/threads.rs" lockBody 0 2 (.acquire .read) 11
        [lockPtr]) := by
  have hmutex : LockSite ⟨2, .void, .call (.direct mutexLock) [.reg 1 ptrTy, lockPtr], some 9⟩
      (.acquire .mutex) 9 [.reg 1 ptrTy, lockPtr] := ⟨rfl, mutexLock, rfl, names_mutexLock⟩
  have hread : LockSite ⟨4, .int 64, .call (.direct rwlockRead) [lockPtr], some 11⟩
      (.acquire .read) 11 [lockPtr] := ⟨rfl, rwlockRead, rfl, names_rwlockRead⟩
  refine ⟨by decide, ?_, ⟨hmutex, ?_⟩, hread, ?_⟩
  · -- The walk comes to the two calls in front of `RwLock::read` only, and neither is a site.
    have hreached : ∀ B ∈ lockBody.blocks, ∀ I ∈ reached Source.helloWorldCpp.leaves B,
        I.indirect = false ∧ Source.helloWorldCpp.site I = none := by decide
    rw [Source.walks_iff]
    intro B hB I hI
    obtain ⟨hind, hsite⟩ := hreached B hB I hI
    exact ⟨fun _ => hind, by simp [hsite]⟩
  · rw [Source.records_iff _ _ rfl rfl hmutex.access_eq_none hmutex.site_spec,
      hmutex.isSome_site_iff]
    exact fun h => absurd h.2.1 (by decide)
  · rw [Source.records_iff _ _ rfl rfl hread.access_eq_none hread.site_spec]
    exact fun h => absurd h.2.2 (by decide)

/-! ## Where a walk fails -/

/-- For a body whose matched calls and invokes have the argument that is taken from them, the walk
of either version reaches its end exactly when it comes to no indirect call or invoke whose called
function it asks for its name: in `HelloWorld.cpp` a debug-located call or invoke, in `function.cpp`
a debug-located invoke. -/
theorem Source.walk_ends_iff (src : Source) (file : String) (F : Body)
    (hoperands : ∀ B ∈ F.blocks, ∀ I ∈ B, ∀ s, src.site I = some s → s.hasOperand = true) :
    (∃ out, src.Walks file F.next F.blocks out) ↔
      ∀ B ∈ F.blocks, ∀ I ∈ reached src.leaves B, src.asksName I = true → I.indirect = false := by
  rw [src.walks_iff]
  constructor
  · exact fun h B hB I hI => (h B hB I hI).1
  · exact fun h B hB I hI => ⟨h B hB I hI, hoperands B hB I (Cursor.mem_of_mem_reached hI)⟩

/-- An invoke of `Mutex::lock`, and calls through a vtable: one without a debug location, and one
behind the call of a method of an atomic type. -/
def vtableBody : Body where
  blocks :=
    [[⟨2, .void, .call (.indirect (.reg 3 ptrTy)) [.reg 1 ptrTy], none⟩,
      ⟨4, .void, .invoke (.direct mutexLock) [.reg 1 ptrTy, lockPtr] 1 2, some 9⟩],
      [⟨5, .int 64, .call (.direct atomicLoad) [lockPtr, .const (.int 4) (.int 8)], some 10⟩,
        ⟨6, .void, .call (.indirect (.reg 3 ptrTy)) [.reg 1 ptrTy], some 11⟩,
        ⟨7, .void, .other "ret" [], some 12⟩],
      [⟨8, .void, .other "resume" [], some 9⟩]]
  next := 9
  below := by decide

/-- Both walks of `vtableBody` reach their end: that of `HelloWorld.cpp` does not come to the
debug-located call through the vtable, and that of `function.cpp` does not ask calls. -/
theorem Source.walk_ends_vtableBody :
    (∃ out, Source.helloWorldCpp.Walks "/src/dyn.rs" 9 vtableBody.blocks out) ∧
    ∃ out, Source.functionCpp.Walks "dyn" 9 vtableBody.blocks out := by
  have hoperands : ∀ src : Source, ∀ B ∈ vtableBody.blocks, ∀ I ∈ B, ∀ s, src.site I = some s →
      s.hasOperand = true := by
    rintro (_ | _) <;> decide +kernel
  have hasked : ∀ src : Source, ∀ B ∈ vtableBody.blocks, ∀ I ∈ reached src.leaves B,
      src.asksName I = true → I.indirect = false := by
    rintro (_ | _) <;> decide +kernel
  exact ⟨(Source.walk_ends_iff _ _ vtableBody (hoperands _)).mpr (hasked _),
    (Source.walk_ends_iff _ _ vtableBody (hoperands _)).mpr (hasked _)⟩

/-- A call and an invoke through a vtable. -/
def dynBody : Body where
  blocks :=
    [[⟨2, .void, .call (.indirect (.reg 1 ptrTy)) [.reg 0 ptrTy], some 20⟩,
      ⟨3, .void, .invoke (.indirect (.reg 1 ptrTy)) [.reg 0 ptrTy] 1 2, some 21⟩],
      [⟨4, .void, .other "ret" [], some 22⟩], [⟨5, .void, .other "resume" [], some 21⟩]]
  next := 6
  below := by decide

/-- Both walks of `dynBody` use a null called function, and take no operand that is not there. -/
theorem Source.walk_fails_dynBody :
    (∀ src : Source, ∀ B ∈ dynBody.blocks, ∀ I ∈ B, ∀ s, src.site I = some s →
      s.hasOperand = true) ∧
    (¬ ∃ out, Source.helloWorldCpp.Walks "/src/dyn.rs" 6 dynBody.blocks out) ∧
    ¬ ∃ out, Source.functionCpp.Walks "dyn" 6 dynBody.blocks out := by
  have hnone : ∀ src : Source, ∀ B ∈ dynBody.blocks, ∀ I ∈ B, src.site I = none := by
    rintro (_ | _) <;> decide
  have hasked : ∀ src : Source, ¬ ∀ B ∈ dynBody.blocks, ∀ I ∈ reached src.leaves B,
      src.asksName I = true → I.indirect = false := by
    rintro (_ | _) <;> decide
  have hfails : ∀ (src : Source) (file : String), ¬ ∃ out, src.Walks file 6 dynBody.blocks out := by
    intro src file
    rw [src.walks_iff]
    exact fun h => hasked src fun B hB I hI => (h B hB I hI).1
  exact ⟨fun src B hB I hI s hs => by simp [hnone src B hB I hI] at hs, hfails _ _, hfails _ _⟩

end AtomicityViolation
