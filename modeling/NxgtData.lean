import NxgtData.Lib.SortedSet
import NxgtData.Lib.Decimal
import NxgtData.Lib.Machine
import NxgtData.Lib.Turns
import NxgtData.Lib.Bucket
import NxgtData.Lib.Utf16
import NxgtData.Lib.JsValue
import NxgtData.Rate.Gcra
import NxgtData.Queue.Script
import NxgtData.Queue.Invariants
import NxgtData.Queue.Fencing
import NxgtData.Queue.Steps
import NxgtData.Queue.WakeUps
import NxgtData.Queue.Attempts
import NxgtData.Queue.Fairness
import NxgtData.Queue.Firing
import NxgtData.Queue.Sync
import NxgtData.Queue.Contract
import NxgtData.Queue.Silent
import NxgtData.Queue.Fifo
import NxgtData.Queue.Dedupe
import NxgtData.Rate.Conformance
import NxgtData.Queue.RateLimit
import NxgtData.Idempotency.Once
import NxgtData.Worker.Close
import NxgtData.Wait.Finished
import NxgtData.Backup.Exclusion
import NxgtData.Lib.Json
import NxgtData.Search.Quiet
import NxgtData.Changes.Run
import NxgtData.Migrations.Named
import NxgtData.GridFs.Elected
import NxgtData.MongoBackup.Unchanged
import NxgtData.MongoBackup.Untouched
import NxgtData.MongoSync.Again
import NxgtData.Schedule.Least
import NxgtData.Token.Closed
import NxgtData.S3.Admits
import NxgtData.Lib.TaskLog
import NxgtData.Rebuild.Server
import NxgtData.Rebuild.Run
import NxgtData.Rebuild.Swapped
import NxgtData.Schedule.Returns
import NxgtData.Rate.Answers
import NxgtData.Queue.JobKey
import NxgtData.MongoBackup.Framed
import NxgtData.MongoBackup.Metadata
import NxgtData.Worker.Aborts
import NxgtData.Meilisearch.Synced
import NxgtData.Redis.Exclusive
import NxgtData.Image.Exact
import NxgtData.GridFs.RoundTrips
import NxgtData.Image.Limit
import NxgtData.Rate.Agrees
import NxgtData.Backup.Retained
import NxgtData.Backup.Whole
import NxgtData.Backup.Ids
import NxgtData.Backup.Held
import NxgtData.Redis.Streams.InOrder
import NxgtData.Backup.Origin
import NxgtData.Backup.Prune
