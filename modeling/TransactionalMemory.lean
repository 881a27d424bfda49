import TransactionalMemory.Library.Circulation
import TransactionalMemory.Library.VersionedStore
import TransactionalMemory.Library.Census
import TransactionalMemory.Library.Linked
import TransactionalMemory.LockOwnership
import TransactionalMemory.ReadHolds
import TransactionalMemory.QueuedFrees
import TransactionalMemory.SpotCirculation
import TransactionalMemory.Reclamation
import TransactionalMemory.SegmentAddresses
import TransactionalMemory.Opacity
import TransactionalMemory.Serializability
import TransactionalMemory.ReadOnlySnapshots
import TransactionalMemory.AbortedTransactions
import TransactionalMemory.LockVersions
import TransactionalMemory.LockOrder
import TransactionalMemory.AccessPaths
import TransactionalMemory.AccessSets
import TransactionalMemory.RangeReads
import TransactionalMemory.SegmentGenerations
import TransactionalMemory.ProvokedAborts
import TransactionalMemory.SegmentTable
import TransactionalMemory.SequentialRefinement
import TransactionalMemory.BloomBits
import TransactionalMemory.GrowableArrays
import TransactionalMemory.AllocationFailures
import TransactionalMemory.BarrierRounds
import TransactionalMemory.Model.RunSync
import TransactionalMemory.RunSynchronisation
import TransactionalMemory.Model.Bank
import TransactionalMemory.BankConservation
import TransactionalMemory.Model.AtomicBlock
import TransactionalMemory.AtomicBlocks
import TransactionalMemory.ReferenceAtomicity
import TransactionalMemory.BankOnReference
import TransactionalMemory.MeasuredRuns
import TransactionalMemory.Model.BankWorkload
import TransactionalMemory.MeasuredBank
import TransactionalMemory.MemorySafety
import TransactionalMemory.Progress
