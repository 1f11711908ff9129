import Moraine.Base.Commands
import Moraine.Base.Following
import Moraine.Base.LastEffect
import Moraine.Base.NameIndex
import Moraine.Base.OrderCode
import Moraine.Base.BinaryFloat
import Moraine.Base.OrdMap
import Moraine.Base.QuotedText
import Moraine.Base.References
import Moraine.Base.Results
import Moraine.Base.Runs
import Moraine.Base.Timeline
import Moraine.Base.VersionLog
import Moraine.Base.Walk
import Moraine.Store.Key
import Moraine.Store.Proto
import Moraine.Store.Store
import Moraine.Store.IndexEncoding
import Moraine.Store.IndexOrder
import Moraine.Store.KeyEncoding
import Moraine.Catalog.Snapshot
import Moraine.Catalog.Inline
import Moraine.Catalog.Flush
import Moraine.Catalog.InlineStore
import Moraine.Catalog.Projection
import Moraine.Catalog.EntityDumps
import Moraine.Catalog.SchemaVersions
import Moraine.Catalog.IndexQuery
import Moraine.Catalog.ScopedRead
import Moraine.Catalog.ScopedBatches
import Moraine.Transaction.Fold
import Moraine.Transaction.Diff
import Moraine.Transaction.Verbs
import Moraine.Transaction.Calls
import Moraine.Transaction.VerbSteps
import Moraine.Transaction.VerbEffects
import Moraine.Transaction.Removals
import Moraine.Transaction.ColumnTrees
import Moraine.Transaction.Evolution
import Moraine.Transaction.CommitFold
import Moraine.Transaction.Commit
import Moraine.Transaction.Refresh
import Moraine.Transaction.IndexMaintenance
import Moraine.Transaction.SequentialEntries
import Moraine.Transaction.Staged
import Moraine.Transaction.IndexUpkeep
import Moraine.Transaction.Uniqueness
import Moraine.Transaction.EntryOwnership
import Moraine.Transaction.InlineStaging
import Moraine.Transaction.ViewFold
import Moraine.Transaction.HeadView
import Moraine.Transaction.Batch
import Moraine.Transaction.ChangeSet
import Moraine.Transaction.DiffExact
import Moraine.Transaction.StagedRows.Decode
import Moraine.Transaction.StagedRows.Apply
import Moraine.Transaction.StagedRows.Effects
import Moraine.Transaction.Coalescer
import Moraine.Transaction.WholeChange
import Moraine.Transaction.TimeTravel
import Moraine.Transaction.Sessions
import Moraine.Transaction.TableRows
import Moraine.Transaction.Ledgers
import Moraine.Transaction.InlineEffects
import Moraine.Transaction.InlineSchemas
import Moraine.Transaction.ColumnDrops
import Moraine.Transaction.Conflicts
import Moraine.Transaction.Integrity
import Moraine.Transaction.Atomicity
import Moraine.Transaction.Migration
import Moraine.Catalog.ReadOnlyHandle
import Moraine.Catalog.IndexAnswers
import Moraine.Catalog.BuildSteps
import Moraine.Catalog.Sweep
