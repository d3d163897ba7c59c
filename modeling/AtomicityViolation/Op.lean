import Mathlib.Logic.Basic

/-!
# The operations of a record

The last field of a log line is the operation that was probed. `Op` lists the texts that the two
versions of the pass, `HelloWorld/HelloWorld.cpp` and `HelloWorld/function.cpp`, write there, and
`Op.role` what each of them stands for: a memory access, or the acquisition or release of a lock
through one of the three kinds of guard of `std::sync`.
-/

namespace AtomicityViolation

/-- The guards of `std::sync`: a `MutexGuard`, an `RwLockReadGuard` or an `RwLockWriteGuard`. -/
inductive GuardKind where
  | mutex
  | read
  | write
  deriving DecidableEq, Repr

/-- The operation of a record. -/
inductive Op where
  /-- `getOpcodeName()` of a store and of a load. -/
  | store
  | load
  /-- The mutex arms. -/
  | lock
  | unlock
  /-- The `RwLock` arms of `HelloWorld.cpp`, at an invoke. -/
  | invokeReadLock
  | invokeReadUnlock
  | invokeWriteLock
  | invokeWriteUnlock
  /-- The `RwLock` arms of `HelloWorld.cpp`, at a call. -/
  | callReadLock
  | callReadUnlock
  | callWriteLock
  | callWriteUnlock
  /-- The atomic arms of `HelloWorld.cpp`, which stand behind a `break`. -/
  | callAtomicLoad
  | callAtomicStore
  /-- The `RwLock` arms of `function.cpp`. -/
  | readLock
  | readUnlock
  | writeLock
  | writeUnlock
  deriving DecidableEq, Repr

/-- The text of an operation, as the source has it. -/
def Op.text : Op → String
  | .store => "store"
  | .load => "load"
  | .lock => "lock"
  | .unlock => "unlock"
  | .invokeReadLock => "invoke - rwlock read lock"
  | .invokeReadUnlock => "invoke - rwlock read unlock"
  | .invokeWriteLock => "invoke - rwlock write lock"
  | .invokeWriteUnlock => "invoke - rwlock write unlock"
  | .callReadLock => "call - rwlock read lock"
  | .callReadUnlock => "call - rwlock read unlock"
  | .callWriteLock => "call - rwlock write lock"
  | .callWriteUnlock => "call - rwlock write unlock"
  | .callAtomicLoad => "call - atomic load"
  | .callAtomicStore => "call - atomic store"
  | .readLock => "rwlock read lock"
  | .readUnlock => "rwlock read unlock"
  | .writeLock => "rwlock write lock"
  | .writeUnlock => "rwlock write unlock"

/-- What an operation is: an access, the acquisition of a lock, or the release of one. -/
inductive Role where
  | access
  | acquire (kind : GuardKind)
  | release (kind : GuardKind)
  deriving DecidableEq, Repr

/-- The role of an operation. -/
def Op.role : Op → Role
  | .store | .load | .callAtomicLoad | .callAtomicStore => .access
  | .lock => .acquire .mutex
  | .unlock => .release .mutex
  | .invokeReadLock | .callReadLock | .readLock => .acquire .read
  | .invokeReadUnlock | .callReadUnlock | .readUnlock => .release .read
  | .invokeWriteLock | .callWriteLock | .writeLock => .acquire .write
  | .invokeWriteUnlock | .callWriteUnlock | .writeUnlock => .release .write

end AtomicityViolation
