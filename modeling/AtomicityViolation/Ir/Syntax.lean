import Mathlib.Data.List.Basic

/-!
# The part of LLVM IR that the pass reads and writes

A function body is a list of basic blocks, and a block a list of instructions. The pass looks at
loads, stores, calls and invokes, and inserts loads, bitcasts, field addresses and calls; every
other instruction is its opcode with its operands. An instruction carries its identity (the number
of its node, which is also the register that holds its result), its type, and the line of its debug
location if it has one. Types are the typed pointers of LLVM 13, which `getPointerElementType`
takes apart.
-/

namespace AtomicityViolation

/-- The types of IR values. A struct is its first field and the struct of the others, ended by
`void`. -/
inductive Ty where
  | void
  | label
  | int (width : ℕ)
  | ptr (elem : Ty)
  | struct (first rest : Ty)
  deriving DecidableEq, Repr

/-- `getPointerElementType()`. LLVM asserts that the type is a pointer. -/
def Ty.elementType : Ty → Ty
  | .ptr elem => elem
  | _ => .void

/-- The type of field 0, whose address a `CreateStructGEP(_, _, 0)` computes. -/
def Ty.field0 : Ty → Ty
  | .struct first _ => first
  | _ => .void

/-- `Type::getInt32Ty`, the `intTy` of the pass. -/
def intTy : Ty := .int 32

/-- `Type::getInt8PtrTy`, the `ptrTy` of the pass. -/
def ptrTy : Ty := .ptr (.int 8)

/-- Constants: integers, the strings of `CreateGlobalStringPtr`, globals, and the constant
expressions that the builder folds a bitcast or a field address of a constant into. -/
inductive Const where
  | int (value : BitVec 32)
  | str (text : String)
  | global (name : String)
  | bitcast (c : Const) (ty : Ty)
  | structGep (c : Const)
  deriving DecidableEq, Repr

/-- A value: a constant, or the register of an instruction or of an argument of the function. -/
inductive Value where
  | const (c : Const) (ty : Ty)
  | reg (id : ℕ) (ty : Ty)
  deriving DecidableEq, Repr

/-- `getType()`. -/
def Value.ty : Value → Ty
  | .const _ ty => ty
  | .reg _ ty => ty

/-- The registers a value reads. -/
def Value.regs : Value → List ℕ
  | .const _ _ => []
  | .reg id _ => [id]

/-- The called operand of a call or an invoke. -/
inductive Callee where
  /-- A function, by its name. -/
  | direct (name : String)
  /-- A function pointer, or an entry of a vtable. -/
  | indirect (target : Value)
  /-- Inline assembly. -/
  | inlineAsm (text : String)
  deriving DecidableEq, Repr

/-- `getCalledFunction()`, by the name of the function: null unless the call is direct. -/
def Callee.getCalledFunction : Callee → Option String
  | .direct name => some name
  | _ => none

/-- The registers the called operand reads. -/
def Callee.regs : Callee → List ℕ
  | .indirect target => target.regs
  | _ => []

/-- An instruction without its identity. Branch targets are positions of blocks. -/
inductive Opcode where
  | store (val ptr : Value)
  | load (ptr : Value)
  | call (callee : Callee) (args : List Value)
  | invoke (callee : Callee) (args : List Value) (normal unwind : ℕ)
  | bitcast (val : Value)
  /-- The address of field 0 of the struct that `ptr` points to. -/
  | structGep (ptr : Value)
  | phi (incoming : List (ℕ × Value))
  /-- Any other instruction, with its operands. -/
  | other (name : String) (operands : List Value)
  deriving DecidableEq, Repr

/-- The registers an instruction reads. -/
def Opcode.regs : Opcode → List ℕ
  | .store val ptr => val.regs ++ ptr.regs
  | .load ptr => ptr.regs
  | .call callee args => callee.regs ++ args.flatMap Value.regs
  | .invoke callee args _ _ => callee.regs ++ args.flatMap Value.regs
  | .bitcast val => val.regs
  | .structGep ptr => ptr.regs
  | .phi incoming => incoming.flatMap fun p => p.2.regs
  | .other _ operands => operands.flatMap Value.regs

/-- The line of a debug location, an unsigned 32-bit number. -/
abbrev Line := BitVec 32

/-- An instruction. `dbg` is `getDebugLoc()`, of which the pass reads the line, or `none` where
`getDebugLoc().get()` is null. -/
structure Inst where
  /-- The identity of the instruction, which names its result. -/
  id : ℕ
  /-- The type of its result. -/
  ty : Ty
  /-- What it does. -/
  op : Opcode
  /-- The line of its debug location. -/
  dbg : Option Line
  deriving DecidableEq, Repr

/-- The instruction's identity and the registers it reads are below `n`. -/
def Inst.Below (n : ℕ) (I : Inst) : Prop :=
  I.id < n ∧ ∀ r ∈ I.op.regs, r < n

instance (n : ℕ) (I : Inst) : Decidable (I.Below n) :=
  inferInstanceAs (Decidable (_ ∧ _))

/-- A basic block. -/
abbrev Block := List Inst

/-- A function body. An instruction that is created gets an identity that no instruction or argument
has: `next` is the first such number. -/
structure Body where
  /-- The basic blocks, the entry block first. -/
  blocks : List Block
  /-- The first unused identity. -/
  next : ℕ
  /-- Everything in the body is below `next`. -/
  below : ∀ B ∈ blocks, ∀ I ∈ B, I.Below next

/-- The call or invoke is indirect: `getCalledFunction()` is null. -/
def Inst.indirect (I : Inst) : Bool :=
  match I.op with
  | .call callee _ => callee.getCalledFunction.isNone
  | .invoke callee _ _ _ => callee.getCalledFunction.isNone
  | _ => false

end AtomicityViolation
