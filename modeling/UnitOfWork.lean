import UnitOfWork.Commit
import UnitOfWork.Data.Json.Printer
import UnitOfWork.Data.Json.Reader
import UnitOfWork.Data.Row
import UnitOfWork.Data.Value.Tagged
import UnitOfWork.Proofs.Commit.Actions
import UnitOfWork.Proofs.Commit.BatchOrder
import UnitOfWork.Proofs.Commit.BoundValues
import UnitOfWork.Proofs.Commit.BuiltRecords
import UnitOfWork.Proofs.Commit.Cancellation
import UnitOfWork.Proofs.Commit.Checkpoints
import UnitOfWork.Proofs.Commit.Course
import UnitOfWork.Proofs.Commit.DeferredInserts
import UnitOfWork.Proofs.Commit.DeleteOrder
import UnitOfWork.Proofs.Commit.DeletedRows
import UnitOfWork.Proofs.Commit.FailedStatements
import UnitOfWork.Proofs.Commit.FinalDeletes
import UnitOfWork.Proofs.Commit.FixedKeys
import UnitOfWork.Proofs.Commit.ForeignKeys
import UnitOfWork.Proofs.Commit.History
import UnitOfWork.Proofs.Commit.InsertAccounts
import UnitOfWork.Proofs.Commit.InsertBindings
import UnitOfWork.Proofs.Commit.InsertCycles
import UnitOfWork.Proofs.Commit.InsertGraph
import UnitOfWork.Proofs.Commit.InsertLoop
import UnitOfWork.Proofs.Commit.InsertOrder
import UnitOfWork.Proofs.Commit.InsertPlans
import UnitOfWork.Proofs.Commit.InsertRounds
import UnitOfWork.Proofs.Commit.InsertedKeys
import UnitOfWork.Proofs.Commit.Inserting
import UnitOfWork.Proofs.Commit.KeyBindings
import UnitOfWork.Proofs.Commit.KeyColumns
import UnitOfWork.Proofs.Commit.LeaseDiscipline
import UnitOfWork.Proofs.Commit.LeaseMarks
import UnitOfWork.Proofs.Commit.PartialSettling
import UnitOfWork.Proofs.Commit.Phases
import UnitOfWork.Proofs.Commit.Refetching
import UnitOfWork.Proofs.Commit.Repeating
import UnitOfWork.Proofs.Commit.ScheduledDeletes
import UnitOfWork.Proofs.Commit.SettledRegistry
import UnitOfWork.Proofs.Commit.SqlInserts
import UnitOfWork.Proofs.Commit.SqlWriter
import UnitOfWork.Proofs.Commit.StatementLog
import UnitOfWork.Proofs.Commit.StoppingErrors
import UnitOfWork.Proofs.Commit.UnresolvedInserts
import UnitOfWork.Proofs.Commit.UnsavedChanges
import UnitOfWork.Proofs.Commit.UpdateBindings
import UnitOfWork.Proofs.Commit.Waves
import UnitOfWork.Proofs.Commit.WrittenOnce
import UnitOfWork.Proofs.Data.Containers
import UnitOfWork.Proofs.Data.KeyText
import UnitOfWork.Proofs.Record.Building
import UnitOfWork.Proofs.Record.Descriptions
import UnitOfWork.Proofs.Record.KeyChains
import UnitOfWork.Proofs.Record.Resolution
import UnitOfWork.Proofs.Record.Setters
import UnitOfWork.Proofs.Sql.Alignment
import UnitOfWork.Proofs.Sql.KeyParameters
import UnitOfWork.Proofs.Sql.Placeholders
import UnitOfWork.Proofs.Sql.RecordFaults
import UnitOfWork.Proofs.Sql.SetColumns
import UnitOfWork.Proofs.Sql.StatementText
import UnitOfWork.Proofs.Sql.Tokens
import UnitOfWork.Proofs.Text.Quoted
import UnitOfWork.Proofs.Tracking.Batches
import UnitOfWork.Proofs.Tracking.BucketTypes
import UnitOfWork.Proofs.Tracking.DeletedMarks
import UnitOfWork.Proofs.Tracking.FailedDeletes
import UnitOfWork.Proofs.Tracking.Folding
import UnitOfWork.Proofs.Tracking.Identity
import UnitOfWork.Proofs.Tracking.ImportWalk
import UnitOfWork.Proofs.Tracking.Lookup
import UnitOfWork.Proofs.Tracking.MarkedHistories
import UnitOfWork.Proofs.Tracking.Moves
import UnitOfWork.Proofs.Tracking.NewRecords
import UnitOfWork.Proofs.Tracking.OrderedSets
import UnitOfWork.Proofs.Tracking.Outcomes
import UnitOfWork.Proofs.Tracking.Reachable
import UnitOfWork.Proofs.Tracking.Readiness
import UnitOfWork.Proofs.Tracking.ReadinessGate
import UnitOfWork.Proofs.Tracking.Reconciling
import UnitOfWork.Proofs.Tracking.Recreating
import UnitOfWork.Proofs.Tracking.Routing
import UnitOfWork.Proofs.Tracking.Settling
import UnitOfWork.Proofs.Tracking.SoundBucket
import UnitOfWork.Proofs.Tracking.SoundWorkspace
import UnitOfWork.Proofs.Tracking.Standing
import UnitOfWork.Proofs.Tracking.Tidiness
import UnitOfWork.Proofs.Triple
