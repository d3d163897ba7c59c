import AtomicityViolation.Ir.Syntax

/-!
# The instruction builder

The part of `IRBuilder` that the pass uses. A builder stands at an insertion point and puts each
instruction it creates there, behind the ones it created before. It gives them the debug location
that it took from the instruction at the insertion point. A bitcast to the type the value already
has is the value itself, and a bitcast or a field address of a constant is folded into a constant,
without an instruction.
-/

namespace AtomicityViolation

/-- Where the pass dereferences a null pointer or breaks a precondition of LLVM's. -/
inductive Fault where
  /-- `getCalledFunction()` is null and is dereferenced. -/
  | nullCallee
  /-- `getArgOperand(i)` on a call without that argument. -/
  | missingOperand (i : ℕ)
  /-- `CreateCall` of a callee that was never set. -/
  | unsetCallee
  /-- `getEntryBlock()` of a function without a body, or a block without a first non-PHI. -/
  | noEntry
  deriving DecidableEq, Repr

/-- A builder at an insertion point. -/
structure IRBuilder where
  /-- The identity of the next instruction created. -/
  next : ℕ
  /-- The debug location that new instructions get. -/
  loc : Option Line
  /-- What was inserted so far, in order. -/
  out : List Inst
  deriving DecidableEq, Repr

namespace IRBuilder

/-- A builder at a new insertion point. -/
def start (next : ℕ) (loc : Option Line) : IRBuilder := ⟨next, loc, []⟩

/-- Creates an instruction at the insertion point. -/
def insert (b : IRBuilder) (ty : Ty) (op : Opcode) : Value × IRBuilder :=
  (.reg b.next ty, { b with next := b.next + 1, out := b.out ++ [⟨b.next, ty, op, b.loc⟩] })

/-- `CreateBitCast(v, ty)`. -/
def createBitCast (b : IRBuilder) (v : Value) (ty : Ty) : Value × IRBuilder :=
  if v.ty = ty then (v, b)
  else
    match v with
    | .const c _ => (.const (.bitcast c ty) ty, b)
    | .reg _ _ => b.insert ty (.bitcast v)

/-- `CreateLoad(ty, ptr)`. -/
def createLoad (b : IRBuilder) (ty : Ty) (ptr : Value) : Value × IRBuilder :=
  b.insert ty (.load ptr)

/-- `CreateStructGEP(ty, ptr, 0)`. -/
def createStructGEP (b : IRBuilder) (ty : Ty) (ptr : Value) : Value × IRBuilder :=
  match ptr with
  | .const c _ => (.const (.structGep c) (.ptr ty.field0), b)
  | .reg _ _ => b.insert (.ptr ty.field0) (.structGep ptr)

/-- `CreateCall(callee, args)` of a function without a result. -/
def createCall (b : IRBuilder) (callee : Option String) (args : List Value) :
    Except Fault IRBuilder :=
  match callee with
  | none => .error .unsetCallee
  | some f => .ok (b.insert .void (.call (.direct f) args)).2

end IRBuilder

/-- `getArgOperand(i)`. LLVM asserts that the call has the argument. -/
def getArgOperand (args : List Value) (i : ℕ) : Except Fault Value :=
  match args[i]? with
  | none => .error (.missingOperand i)
  | some v => .ok v

end AtomicityViolation
