import Vbe.ECC.Truncation
import Vbe.ECC.Correction
import Vbe.Index.Malformed
import Vbe.IndexBlob.Preservation
import Vbe.Content.Answers
import Vbe.Content.RewriteRace
import Vbe.Content.FailedUploads
import Vbe.Content.Iteration
import Vbe.Content.RecoveryRoundTrip
import Vbe.Splitter.Stability
import Vbe.Policy.RetentionReasons
import Vbe.IgnoreFS.Rules
import Vbe.IgnoreFS.Reporting
import Vbe.Objects.Backing
import Vbe.Caching.ListCache
import Vbe.Caching.OwnWrites
import Vbe.Format.Openable
import Vbe.Maintenance.Orphans
import Vbe.Caching.Accounting
import Vbe.Maintenance.DropSafety
import Vbe.Format.Rollback
import Vbe.Format.FailedUpdates
import Vbe.IndexBlob.CrashSafety
import Vbe.IndexBlob.Dropping
import Vbe.Content.ParallelIteration
import Vbe.Objects.Seeking
import Vbe.Objects.Access
import Vbe.Manifests.Latest
import Vbe.Manifests.Lookup
import Vbe.Bigmap.Calls
import Vbe.Auth.Isolation
import Vbe.Auth.Placeholders
import Vbe.Sharded.Reported
import Vbe.Gather.Sliced
import Vbe.Epoch.OldestUncompacted
import Vbe.Epoch.Placement
import Vbe.Snapshots.Summaries
import Vbe.Snapshots.ParallelUpload
import Vbe.Format.Replicas
import Vbe.Content.IndexSwitch
import Vbe.Policy.PolicyTree
import Vbe.Policy.PolicyMerge
import Vbe.Policy.ParentPaths
import Vbe.Policy.Hierarchy
import Vbe.Policy.Schedule
import Vbe.Manifests.Serialized
import Vbe.Wildcard.Brackets
import Vbe.Wildcard.Independence
import Vbe.Snapshots.Visits
import Vbe.Snapshots.InOrder
import Vbe.Workshare.Visiting
import Vbe.Snapshots.Unchanged
import Vbe.Snapshots.SourceDirectories
import Vbe.Gather.Chunks
import Vbe.Gather.WriteBuffers
