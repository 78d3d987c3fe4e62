import CodeIndex.Main
import CodeIndex.Proofs.Dict
import CodeIndex.Proofs.Division
import CodeIndex.Proofs.Action
import CodeIndex.Proofs.Change
import CodeIndex.Proofs.Place
import CodeIndex.Proofs.Store
import CodeIndex.Proofs.Documents
import CodeIndex.Proofs.Consistency
import CodeIndex.Proofs.Membership
import CodeIndex.Proofs.Looking
import CodeIndex.Proofs.Rollback
import CodeIndex.Proofs.FailedUpdate
import CodeIndex.Proofs.IncrementalRun
import CodeIndex.Proofs.JsonText
import CodeIndex.Proofs.DocumentText
import CodeIndex.Proofs.Analysis
import CodeIndex.Proofs.Regrouping
import CodeIndex.Proofs.Untouched
import CodeIndex.Proofs.Holding
import CodeIndex.Proofs.Examined
import CodeIndex.Proofs.Touched
import CodeIndex.Proofs.Renewal
import CodeIndex.Proofs.Building
import CodeIndex.Proofs.Made
import CodeIndex.Proofs.CacheText
import CodeIndex.Proofs.Remembered
import CodeIndex.Proofs.Built
import CodeIndex.Proofs.StorageFailure
import CodeIndex.Proofs.SameIndex
import CodeIndex.Proofs.AsBuilt
import CodeIndex.Proofs.UpdateMatches
import CodeIndex.Proofs.Inventory
import CodeIndex.Proofs.AnyIndex
import CodeIndex.Proofs.Healing
import CodeIndex.Proofs.Outputs
import CodeIndex.Proofs.Listed
import CodeIndex.Proofs.SingleBuild
import CodeIndex.Proofs.Kept
import CodeIndex.Proofs.SourceState
import CodeIndex.Proofs.Overwritten
import CodeIndex.Proofs.Surveys
import CodeIndex.Proofs.Unseen
import CodeIndex.Proofs.Rebuilt
import CodeIndex.Proofs.CacheLife
import CodeIndex.Proofs.Migrating
import CodeIndex.Proofs.MigrationMatches
import CodeIndex.Proofs.CallGraph
import CodeIndex.Proofs.Walk
import CodeIndex.Proofs.Impact
import CodeIndex.Proofs.Undone
import CodeIndex.Proofs.Folders
import CodeIndex.Proofs.Placement
import CodeIndex.Proofs.Tracked
import CodeIndex.Proofs.Totals
import CodeIndex.Proofs.ShardText
import CodeIndex.Proofs.Loading
import CodeIndex.Proofs.Asking
import CodeIndex.Proofs.Idempotence
import CodeIndex.Proofs.Plan
import CodeIndex.Proofs.Contents
import CodeIndex.Proofs.Lawful
import CodeIndex.Proofs.Sightings
import CodeIndex.Proofs.Interleaving
import CodeIndex.Proofs.CatchingUp
import CodeIndex.Proofs.Verification
import CodeIndex.Proofs.Snapshot
import CodeIndex.Proofs.JsonLine
import CodeIndex.Proofs.Serving
import CodeIndex.Proofs.Descent
import CodeIndex.Proofs.ScriptMembers
import CodeIndex.Proofs.ScriptLineAbove
import CodeIndex.Proofs.ScriptStops
import CodeIndex.Proofs.Recovered
import CodeIndex.Proofs.Overlays
import CodeIndex.Proofs.Importers
import CodeIndex.Proofs.InStep
import CodeIndex.Proofs.UpdateInStep
import CodeIndex.Proofs.MapLookup
import CodeIndex.Proofs.ShellByNumber
import CodeIndex.Proofs.CachePersistence
import CodeIndex.Proofs.LogText
import CodeIndex.Proofs.Headings
import CodeIndex.Proofs.Settings
import CodeIndex.Proofs.DisplayTree
import CodeIndex.Proofs.TreeLines
import CodeIndex.Proofs.Relevance
import CodeIndex.Proofs.Searching
import CodeIndex.Proofs.ScriptBalance
import CodeIndex.Proofs.DirCount
