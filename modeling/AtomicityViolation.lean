import AtomicityViolation.Op
import AtomicityViolation.Library.Run
import AtomicityViolation.Library.Simulation
import AtomicityViolation.Library.CallStack
import AtomicityViolation.Library.Interleaved
import AtomicityViolation.Library.Weave
import AtomicityViolation.Library.Cursor
import AtomicityViolation.Library.Dict
import AtomicityViolation.Library.Lines
import AtomicityViolation.Library.Utf8
import AtomicityViolation.Library.Infix
import AtomicityViolation.Library.LockedStream
import AtomicityViolation.Library.Shuffle
import AtomicityViolation.Library.Before
import AtomicityViolation.Library.TwoStep
import AtomicityViolation.Library.Sections
import AtomicityViolation.Library.Ledger
import AtomicityViolation.Library.LinkedList
import AtomicityViolation.Ir.Syntax
import AtomicityViolation.Ir.Builder
import AtomicityViolation.Ir.Semantics
import AtomicityViolation.Ir.Verifier
import AtomicityViolation.Pass.Walk
import AtomicityViolation.Pass.Layout
import AtomicityViolation.Pass.Run
import AtomicityViolation.Pass.Coverage
import AtomicityViolation.Pass.Preserve
import AtomicityViolation.Pass.Modules
import AtomicityViolation.Pass.Steps
import AtomicityViolation.Pass.Filter
import AtomicityViolation.Pass.Calls
import AtomicityViolation.Pass.Names
import AtomicityViolation.Pass.Initial
import AtomicityViolation.Pass.Verified
import AtomicityViolation.Runtime.Record
import AtomicityViolation.Runtime.Inttrace
import AtomicityViolation.Pass.Recorder
import AtomicityViolation.Pass.Shown
import AtomicityViolation.Pass.Records
import AtomicityViolation.Pass.Program
import AtomicityViolation.Pass.ModuleRecords
import AtomicityViolation.Pass.Threads
import AtomicityViolation.Pass.ThreadsPreserve
import AtomicityViolation.Runtime.LifeCycle
import AtomicityViolation.Report.Atom
import AtomicityViolation.Report.Sharing
import AtomicityViolation.Report.Decode
import AtomicityViolation.Report.Schedule
import AtomicityViolation.Report.Threads
import AtomicityViolation.Report.Truncated
import AtomicityViolation.Report.AnyText
import AtomicityViolation.Concurrency.Machine
import AtomicityViolation.Concurrency.Code
import AtomicityViolation.Concurrency.Order
import AtomicityViolation.Concurrency.CriticalSections
import AtomicityViolation.Concurrency.Locksets
import AtomicityViolation.Concurrency.Guarded
import AtomicityViolation.Concurrency.Deadlock
import AtomicityViolation.Concurrency.Unlocks
import AtomicityViolation.Report.Guarded
import AtomicityViolation.Report.Unlocks
import AtomicityViolation.Subjects.ConcBag
import AtomicityViolation.Subjects.Collect
import AtomicityViolation.Subjects.Linearise
import AtomicityViolation.Subjects.Peers
import AtomicityViolation.Subjects.ClosePeers
import AtomicityViolation.Subjects.Oneshot
import AtomicityViolation.Subjects.HandOver
