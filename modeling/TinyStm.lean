import TinyStm.Build
import TinyStm.Client.Atomic
import TinyStm.Client.Bank
import TinyStm.Client.Follow
import TinyStm.Client.Map
import TinyStm.Client.Program
import TinyStm.Client.Record
import TinyStm.Client.Records
import TinyStm.Client.Threads
import TinyStm.Ctl.Discipline
import TinyStm.Ctl.Locks
import TinyStm.Ctl.Log
import TinyStm.Forget
import TinyStm.Gc.Arrays
import TinyStm.Gc.Effects
import TinyStm.Gc.Inv
import TinyStm.Gc.Model
import TinyStm.Gc.Ops
import TinyStm.Gc.Outlive
import TinyStm.Gc.Safe
import TinyStm.Gc.Steps
import TinyStm.Gc.WriteSets
import TinyStm.Growth.Links
import TinyStm.Growth.Transparent
import TinyStm.Invariant
import TinyStm.Irrev.Model
import TinyStm.Irrev.Stages
import TinyStm.Irrev.Waits
import TinyStm.Kernel.Delivery
import TinyStm.Kernel.Overtick
import TinyStm.Kernel.PatchSite
import TinyStm.Kernel.Protocol
import TinyStm.Kernel.Registry
import TinyStm.Kernel.Standing
import TinyStm.Kernel.TickProtocol
import TinyStm.Kernel.Trampoline
import TinyStm.Lib.Bytes
import TinyStm.Lib.CText
import TinyStm.Lib.Cells
import TinyStm.Lib.Chain
import TinyStm.Lib.Entries
import TinyStm.Lib.History
import TinyStm.Lib.Interleave
import TinyStm.Lib.Logged
import TinyStm.Lib.Loop
import TinyStm.Lib.Pooling
import TinyStm.Lib.Replay
import TinyStm.Lib.Rounding
import TinyStm.Lib.Timeline
import TinyStm.Lib.UndoLog
import TinyStm.Machine
import TinyStm.Mb.Key
import TinyStm.Mb.KeyIndex
import TinyStm.Mb.Means
import TinyStm.Mb.Search
import TinyStm.Mb.Table
import TinyStm.Mb.TableInv
import TinyStm.Mb.TableRuns
import TinyStm.Mb.TableSteps
import TinyStm.Mb.Window
import TinyStm.Mod.Callbacks
import TinyStm.Mod.Lists
import TinyStm.Mod.Log
import TinyStm.Mod.Mem
import TinyStm.Nbb.Acquire
import TinyStm.Nbb.AcquireRuns
import TinyStm.Nbb.Alloc
import TinyStm.Nbb.Fifo
import TinyStm.Nbb.Ring
import TinyStm.Nbb.Sched
import TinyStm.Nbb.SchedInv
import TinyStm.Nbb.SchedLimits
import TinyStm.Nbb.SchedRefine
import TinyStm.Nbb.SchedStep
import TinyStm.Nbb.Word
import TinyStm.Nesting
import TinyStm.Opacity
import TinyStm.Packed
import TinyStm.Pool.Lifecycle
import TinyStm.Pool.Model
import TinyStm.Pool.Parts
import TinyStm.Pool.Places
import TinyStm.Pool.Runs
import TinyStm.Pool.Steps
import TinyStm.Quiesce.Exclusive
import TinyStm.Quiesce.Local
import TinyStm.Quiesce.Model
import TinyStm.Quiesce.Overflow
import TinyStm.Quiesce.Rollover
import TinyStm.Range
import TinyStm.Rbtree.Balance
import TinyStm.Rbtree.Code
import TinyStm.Rbtree.Delete
import TinyStm.Rbtree.Edits
import TinyStm.Rbtree.Insert
import TinyStm.Rbtree.Map
import TinyStm.Rbtree.Remove
import TinyStm.Rbtree.Runs
import TinyStm.Rbtree.Search
import TinyStm.Rbtree.Shape
import TinyStm.Rbtree.Verify
import TinyStm.Rbtree.Walk
import TinyStm.ReadOnly
import TinyStm.Seq.Base
import TinyStm.Seq.Ctl
import TinyStm.Seq.Etl
import TinyStm.Seq.Model
import TinyStm.Seq.Same
import TinyStm.Seq.Through
import TinyStm.Serial
import TinyStm.SharedInv
import TinyStm.Snapshot
import TinyStm.Spin.Highest
import TinyStm.Spin.Lists
import TinyStm.Spin.Locks
import TinyStm.Spin.Model
import TinyStm.Spin.Safe
import TinyStm.Spin.Tasks
import TinyStm.Stability
import TinyStm.Steps.Base
import TinyStm.Steps.Commit
import TinyStm.Steps.Encounter
import TinyStm.Steps.Load
import TinyStm.Steps.Publish
import TinyStm.Steps.Store
import TinyStm.Steps.Undo
import TinyStm.Steps.Unit
import TinyStm.Steps.WriteBack
import TinyStm.StmStats
import TinyStm.Tick
import TinyStm.Tpcc.Consistency
import TinyStm.Tpcc.Delivery
import TinyStm.Tpcc.Format
import TinyStm.Tpcc.Model
import TinyStm.Tpcc.Money
import TinyStm.Tpcc.Orders
import TinyStm.Tpcc.Populate
import TinyStm.Tpcc.StockLevel
import TinyStm.Tpcc.Tables
import TinyStm.TxInv
import TinyStm.Undo.Exact
import TinyStm.Undo.Inv
import TinyStm.Undo.Model
import TinyStm.Undo.Runs
import TinyStm.Undo.Steps
import TinyStm.UnitOps
import TinyStm.Wrap.Model
import TinyStm.Wrap.Refine
import TinyStm.Wrap.Typed
import TinyStm.WriteSet
