import Mathlib.Data.List.Infix
import AtomicityViolation.Op
import AtomicityViolation.Ir.Builder
import AtomicityViolation.Library.Cursor

/-!
# The instrumentation walk

Both versions of the pass walk over the instructions of a function body and insert calls of the
runtime's probes: `HelloWorld/HelloWorld.cpp` on lines 74 to 461, and `HelloWorld/function.cpp` on
lines 58 to 164 with the helpers on lines 201 to 325. Their store and load arms are the same but for
the string they pass as `file`, and their lock arms differ in the names they look for, in the
operation they record, and in how they come by the address of the lock (`Route`). Each version is
its table of arms and its dispatch on the opcode (`visit`); the loops are those of
`Library/Cursor.lean`.
-/

namespace AtomicityViolation

open Cursor (Visit)

/-- The fields of the pass object that a run reads: the flag, and the callees that `initialization`
sets. They are null before. -/
structure HelloWorld where
  initial : Bool := false
  p_init : Option String := none
  p_probe : Option String := none
  p_probe_lock : Option String := none
  deriving DecidableEq, Repr

/-- The pass object after `initialization`. -/
def HelloWorld.ready : HelloWorld := ⟨true, some "_init_", some "_probe_", some "_probe_lock_"⟩

/-- `s.find(p) != std::string::npos`. -/
def found (s p : String) : Bool := decide (p.toList <:+: s.toList)

/-- The arguments of a probe call. -/
def probeArgs (loc : Line) (file op : String) (addr : Value) : List Value :=
  [.const (.int loc) intTy, .const (.str file) ptrTy, .const (.str op) ptrTy, addr]

/-- The end of every arm: the bitcast of the address to `ptrTy`, and the call. -/
def IRBuilder.probe (b : IRBuilder) (callee : Option String) (loc : Line) (file op : String)
    (addr : Value) : Except Fault IRBuilder :=
  let (varAddr, b) := b.createBitCast addr ptrTy
  b.createCall callee (probeArgs loc file op varAddr)

/-! ## Loads and stores -/

/-- `storeLog`, and the store arm of `HelloWorld.cpp`: the builder stands before the store. -/
def storeLog (P : HelloWorld) (file : String) (next : ℕ) (I : Inst) (ptr : Value) :
    Except Fault (Visit Inst ℕ) :=
  match I.dbg with
  | none => .ok (.skip next)
  | some loc =>
    ((IRBuilder.start next (some loc)).probe P.p_probe loc file Op.store.text ptr).map fun b =>
      ⟨b.out, [], b.next, false⟩

/-- The debug location of a builder after `SetInsertPoint(&B, ++builder.GetInsertPoint())`: that of
the instruction that follows, and the one it had at the end of a block. -/
def locBehind (loc : Line) : Option Inst → Option Line
  | none => some loc
  | some J => J.dbg

/-- `loadLog`, and the load arm of `HelloWorld.cpp`: the builder stands behind the load. -/
def loadLog (P : HelloWorld) (file : String) (next : ℕ) (I : Inst) (following : Option Inst)
    (ptr : Value) : Except Fault (Visit Inst ℕ) :=
  match I.dbg with
  | none => .ok (.skip next)
  | some loc =>
    ((IRBuilder.start next (locBehind loc following)).probe P.p_probe loc file Op.load.text ptr).map
      fun b => ⟨[], b.out, b.next, false⟩

/-! ## Locks -/

/-- How an arm comes by the address of the lock. -/
inductive Route where
  /-- It is argument `i`. -/
  | argument (i : ℕ)
  /-- Argument 0 points to a guard, whose field 0 is loaded. -/
  | guardField
  /-- Argument 0 points to a guard, which is loaded. -/
  | guardValue
  deriving DecidableEq, Repr

/-- The address of the lock, with the instructions that compute it. The guard arms load the whole
guard first, and `guardField` uses that load only for its type. -/
def Route.address (b : IRBuilder) (args : List Value) : Route → Except Fault (Value × IRBuilder)
  | .argument i =>
    match getArgOperand args i with
    | .error e => .error e
    | .ok var => .ok (var, b)
  | .guardField =>
    match getArgOperand args 0 with
    | .error e => .error e
    | .ok var =>
      let (MutexGuard, b) := b.createLoad var.ty.elementType var
      let (lockPtr, b) := b.createStructGEP MutexGuard.ty var
      .ok (b.createLoad lockPtr.ty.elementType lockPtr)
  | .guardValue =>
    match getArgOperand args 0 with
    | .error e => .error e
    | .ok var => .ok (b.createLoad var.ty.elementType var)

/-- An arm of the chain on the name of the called function: the text it looks for, how it comes by
the address, and the operation it records. -/
structure Arm where
  pattern : String
  route : Route
  op : Op
  deriving DecidableEq, Repr

/-- The body of an arm: the builder stands before the call. -/
def Arm.log (a : Arm) (P : HelloWorld) (file : String) (next : ℕ) (loc : Line)
    (args : List Value) : Except Fault (Visit Inst ℕ) :=
  match a.route.address (IRBuilder.start next (some loc)) args with
  | .error e => .error e
  | .ok (lock, b) =>
    (b.probe P.p_probe_lock loc file a.op.text lock).map fun b => ⟨b.out, [], b.next, false⟩

/-- The `else if` chain of a call or invoke: `getCalledFunction()` is dereferenced for its name, and
the first arm whose text is in the name runs. What happens when there is none is `otherwise`. -/
def lockChain (arms : List Arm) (P : HelloWorld) (file : String) (next : ℕ) (I : Inst)
    (callee : Callee) (args : List Value) (otherwise : String → Visit Inst ℕ) :
    Except Fault (Visit Inst ℕ) :=
  match I.dbg with
  | none => .ok (.skip next)
  | some loc =>
    match callee.getCalledFunction with
    | none => .error .nullCallee
    | some funcName =>
      match arms.find? fun a => found funcName a.pattern with
      | none => .ok (otherwise funcName)
      | some a => a.log P file next loc args

/-! ## `HelloWorld.cpp` -/

namespace HelloWorldCpp

/-- The arms at an invoke, lines 143 to 279. -/
def invokeArms : List Arm :=
  [⟨"std4sync5mutex14Mutex$LT$T$GT$4lock", .argument 1, .lock⟩,
   ⟨"drop_in_place$LT$std..sync..mutex..MutexGuard", .guardField, .unlock⟩,
   ⟨"std4sync6rwlock15RwLock$LT$T$GT$4read", .argument 0, .invokeReadLock⟩,
   ⟨"drop_in_place$LT$std..sync..rwlock..RwLockReadGuard", .guardValue, .invokeReadUnlock⟩,
   ⟨"std4sync6rwlock15RwLock$LT$T$GT$5write", .argument 1, .invokeWriteLock⟩,
   ⟨"drop_in_place$LT$std..sync..rwlock..RwLockWriteGuard", .guardField, .invokeWriteUnlock⟩]

/-- The arms at a call, lines 289 to 399. -/
def callArms : List Arm :=
  [⟨"std4sync6rwlock15RwLock$LT$T$GT$5write", .argument 1, .callWriteLock⟩,
   ⟨"std4sync6rwlock15RwLock$LT$T$GT$4read", .argument 0, .callReadLock⟩,
   ⟨"drop_in_place$LT$std..sync..rwlock..RwLockReadGuard", .guardValue, .callReadUnlock⟩,
   ⟨"drop_in_place$LT$std..sync..rwlock..RwLockWriteGuard", .guardField, .callWriteUnlock⟩]

/-- The condition on line 400, for the methods of the atomic types. -/
def isAtomic (funcName : String) : Bool :=
  found funcName "core4sync6atomic" && found funcName "Atomic"

/-- One turn of the inner loop. The `break` on line 401 leaves the loop over the block, so the
atomic arms behind it never run. -/
def visit (P : HelloWorld) (filePath : String) (next : ℕ) (I : Inst) (following : Option Inst) :
    Except Fault (Visit Inst ℕ) :=
  match I.op with
  | .store _ ptr => storeLog P filePath next I ptr
  | .load ptr => loadLog P filePath next I following ptr
  | .invoke callee args _ _ =>
    lockChain invokeArms P filePath next I callee args fun _ => .skip next
  | .call callee args =>
    lockChain callArms P filePath next I callee args fun funcName =>
      ⟨[], [], next, isAtomic funcName⟩
  | _ => .ok (.skip next)

end HelloWorldCpp

/-! ## `function.cpp` -/

namespace FunctionCpp

/-- `lockLog`. -/
def lockLog : Route × Op := (.argument 1, .lock)

/-- `rwlockReadLog`. -/
def rwlockReadLog : Route × Op := (.argument 0, .readLock)

/-- `rwlockWriteLog`. -/
def rwlockWriteLog : Route × Op := (.argument 1, .writeLock)

/-- The arms at an invoke, lines 80 to 160. -/
def invokeArms : List Arm :=
  [⟨"_ZN3std4sync5mutex14Mutex$LT$T$GT$4lock", lockLog.1, lockLog.2⟩,
   ⟨"_ZN4core3ptr60drop_in_place$LT$std..sync..mutex..MutexGuard", .guardField, .unlock⟩,
   ⟨"_ZN3std4sync6rwlock15RwLock$LT$T$GT$4read", rwlockReadLog.1, rwlockReadLog.2⟩,
   ⟨"_ZN4core3ptr66drop_in_place$LT$std..sync..rwlock..RwLockReadGuard", .guardValue, .readUnlock⟩,
   ⟨"_ZN3std4sync6rwlock15RwLock$LT$T$GT$5write", rwlockWriteLog.1, rwlockWriteLog.2⟩,
   ⟨"_ZN4core3ptr67drop_in_place$LT$std..sync..rwlock..RwLockWriteGuard", .guardField,
     .writeUnlock⟩]

/-- One turn of the inner loop. There is no arm for calls. -/
def visit (P : HelloWorld) (FName : String) (next : ℕ) (I : Inst) (following : Option Inst) :
    Except Fault (Visit Inst ℕ) :=
  match I.op with
  | .store _ ptr => storeLog P FName next I ptr
  | .load ptr => loadLog P FName next I following ptr
  | .invoke callee args _ _ => lockChain invokeArms P FName next I callee args fun _ => .skip next
  | _ => .ok (.skip next)

end FunctionCpp

end AtomicityViolation
